import CallGraph.Proofs.Search.InStep
import CallGraph.Proofs.Search.Sameness

/-!
# Children found again

Whoever looks for the children of a vertex again finds vertices that look alike, in the same order: the index
answers alike, and what is made of answers alike looks alike.  The only questions on a search path of their own
are those for the members of a package, which come first; after them the search path of the project is in use, and
resolving the members again leaves it so.
-/

namespace CallGraph

open Source

/-- Vertices with equal elements. -/
def Vertex.LooksLike (v v' : Vertex) : Prop :=
  (v.element == v'.element) = true

variable {c : Scene} {token token' : Token} {files : FileTree} {searchPath : List Path} {W : Path → Prop}

/-! ### Vertices that look alike -/

theorem Vertex.LooksLike.refl (v : Vertex) :
  v.LooksLike v
  :=
  Element.beq_iff.mpr ⟨beq_self_eq_true _, beq_self_eq_true _, rfl, rfl, rfl, rfl, rfl, rfl⟩

theorem Vertex.LooksLike.ofDefinition {d d' : Definition} (hd : d.Alike files d') {p p' : CallPosition}
    (hp : (p == p') = true) (role : Role) :
  (Vertex.ofDefinition role p d).LooksLike (Vertex.ofDefinition role p' d')
  := by
  obtain ⟨hpath, hname, hkind, hmodule, hstart, hstop⟩ := Definition.beq_iff.mp hd.beq
  exact Element.beq_iff.mpr ⟨hpath, hp, hname, hkind, hmodule, rfl, hstart, hstop⟩

theorem CallSite.Alike.beq {s s' : CallSite} (h : s.Alike files s') :
  Equal s s'
  := by
  rw [h.rest]
  exact CallSite.beq_iff.mpr ⟨optionRel_beq h.path, rfl, rfl, rfl, rfl, rfl⟩

theorem ScopeName.Alike.beq {n n' : ScopeName} (h : n.Alike files n') :
  Equal n n'
  := by
  refine ScopeName.beq_iff.mpr ⟨h.role.symm, ?_, h.definition.beq⟩
  rw [CallPosition.beq_iff, h.position]
  exact ⟨optionRel_beq h.path, rfl, rfl⟩

theorem Usage.Alike.position {u u' : Usage} (h : u.Alike files u') :
  (u.position == u'.position) = true
  := by
  rw [CallPosition.beq_iff, h.rest]
  exact ⟨optionRel_beq h.path, rfl, rfl⟩

/-- The vertices of call sites alike with targets alike. -/
theorem looksLike_siteVertices {s s' : CallSite} (hs : s.Alike files s') {ds ds' : List Definition}
    (hds : List.Forall₂ (Definition.Alike files) ds ds') :
  List.Forall₂ Vertex.LooksLike (siteVertices s ds) (siteVertices s' ds')
  :=
  (same_siteVertices hs.beq (hds.imp fun _ _ hd => hd.beq)).imp fun _ _ hv => hv.element

/-- The vertices of names alike. -/
theorem looksLike_nameVertices {ns ns' : List ScopeName} (h : List.Forall₂ (ScopeName.Alike files) ns ns') :
  List.Forall₂ Vertex.LooksLike (nameVertices ns) (nameVertices ns')
  :=
  (same_nameVertices (h.imp fun _ _ hn => hn.beq)).imp fun _ _ hv => hv.element

/-! ### Members of packages -/

variable [Parser]

namespace Search

/-- Two ways in which a module name is resolved: to vertices that look alike, or both times not at all. -/
def ResolvedAlike (r r' : Except ResolutionError Vertex) : Prop :=
  Option.Rel Vertex.LooksLike r.toOption r'.toOption

theorem inStep_moduleVertex (c : Scene) (token token' : Token) (name : String) {inUse : List Path} :
  InStep c token token' (fun x => searchPathFor x (.resolve name c.searchPath) = inUse) (· = inUse) (fun _ => True)
    ResolvedAlike (moduleVertex c.searchPath name) (moduleVertex c.searchPath name)
  := by
  have hjoin (a a' z : Option Definition) (h : Option.Rel (Definition.Alike c.files) a z)
      (h' : Option.Rel (Definition.Alike c.files) a' z) : Option.Rel (Definition.Alike c.files) a a' := by
    cases h with
    | none =>
      cases h'
      exact .none
    | some h =>
      cases h' with
      | some h' => exact .some (h.join h')
  unfold moduleVertex
  apply InStep.bind (InStep.ask (.resolve name c.searchPath) (.resolve name c.searchPath) (fun _ h => ⟨h, h⟩)
    (mirrors_resolve name) (mirrors_resolve name) (fun a a' z _ => hjoin a a' z) (by simp) (by simp))
  rintro _ _ (@⟨_, _, @⟨d, d', hd⟩ | _⟩ | _)
  · have hpath := hd.path
    have hposition : (CallPosition.mk d.path (.known 1 0) .unknown == ⟨d'.path, .known 1 0, .unknown⟩) = true :=
      CallPosition.beq_iff.mpr ⟨optionRel_beq hpath, rfl, rfl⟩
    have hshown := Vertex.LooksLike.ofDefinition hd hposition .definition
    dsimp only
    generalize d.path = x at hpath hshown ⊢
    generalize d'.path = x' at hpath hshown ⊢
    cases hpath with
    | none => exact .pure (.some hshown)
    | some hpath => exact (InStep.widen hpath trivial).bind fun _ _ _ => .pure (.some hshown)
  · exact .pure .none
  · exact .pure .none

/-- Resolving one more name first. -/
theorem inStep_moduleVertices_cons {name : String} {names : List String} {inUse : List Path}
    (h : InStep c token token' (· = inUse) (· = inUse) (fun _ => True) (List.Forall₂ Vertex.LooksLike)
      (moduleVertices c.searchPath names) (moduleVertices c.searchPath names)) :
  InStep c token token' (fun x => searchPathFor x (.resolve name c.searchPath) = inUse) (· = inUse) (fun _ => True)
    (List.Forall₂ Vertex.LooksLike) (moduleVertices c.searchPath (name :: names))
    (moduleVertices c.searchPath (name :: names))
  := by
  unfold moduleVertices
  apply (inStep_moduleVertex c token token' name).bind
  intro r r' hr
  apply h.bind
  intro vs vs' hvs
  cases r with
  | ok v =>
    cases r' with
    | ok v' =>
      cases hr with
      | some hv => exact .pure (.cons hv hvs)
    | error e' => cases hr
  | error e =>
    cases r' with
    | ok v' => cases hr
    | error e' => exact .pure hvs

/-- Resolving names leaves one search path in use, from which resolving them again starts as well as from the one
that was in use before. -/
theorem exists_inStep_moduleVertices (c : Scene) (before : List Path) (names : List String) :
  ∃ inUse, ∀ token token', InStep c token token' (fun x => x = before ∨ x = inUse) (· = inUse) (fun _ => True)
    (List.Forall₂ Vertex.LooksLike) (moduleVertices c.searchPath names) (moduleVertices c.searchPath names)
  := by
  cases names with
  | nil =>
    refine ⟨before, fun token token' => ?_⟩
    exact (InStep.pure .nil).withInUse fun x hx => hx.elim id id
  | cons name names =>
    have hresolve (x : List Path) (name : String) : searchPathFor x (.resolve name c.searchPath) =
        if x == c.searchPath then x else c.searchPath := rfl
    have hsame (name' : String) : searchPathFor (searchPathFor before (.resolve name c.searchPath))
        (.resolve name' c.searchPath) = searchPathFor before (.resolve name c.searchPath) := by
      rw [hresolve, hresolve]
      cases hbefore : before == c.searchPath with
      | true => simp [hbefore]
      | false => simp
    refine ⟨searchPathFor before (.resolve name c.searchPath), fun token token' => ?_⟩
    have hrest : InStep c token token' (· = searchPathFor before (.resolve name c.searchPath))
        (· = searchPathFor before (.resolve name c.searchPath)) (fun _ => True) (List.Forall₂ Vertex.LooksLike)
        (moduleVertices c.searchPath names) (moduleVertices c.searchPath names) := by
      induction names with
      | nil => exact .pure .nil
      | cons name' names ih =>
        apply (inStep_moduleVertices_cons ih).withInUse
        rintro _ rfl
        exact hsame name'
    apply (inStep_moduleVertices_cons hrest).withInUse
    rintro x (rfl | rfl)
    · rfl
    · exact hsame name

/-- Listing the members of a package again. -/
theorem exists_inStep_memberVertices (c : Scene) (before : List Path) (marker : Path) (package : String) :
  ∃ inUse, ∀ token token', InStep c token token' (fun x => x = before ∨ x = inUse) (· = inUse) (fun _ => True)
    (List.Forall₂ Vertex.LooksLike) (memberVertices marker package) (memberVertices marker package)
  := by
  have hnone (token token' : Token) : InStep c token token' (fun x => x = before ∨ x = before) (· = before)
      (fun _ => True) (List.Forall₂ Vertex.LooksLike) (Pure.pure []) (Pure.pure []) :=
    (InStep.pure .nil).withInUse fun x hx => hx.elim id id
  unfold memberVertices
  cases marker.parent? with
  | none => exact ⟨before, hnone⟩
  | some directory =>
    dsimp only
    cases hlisted : PackageMembers.list c.files directory with
    | error e =>
      refine ⟨before, fun token token' => InStep.searchPath.bind ?_⟩
      rintro _ _ ⟨rfl, rfl⟩
      apply InStep.files.bind
      rintro _ _ ⟨rfl, rfl⟩
      rw [hlisted]
      exact (InStep.log _ _).bind fun _ _ _ => hnone token token'
    | ok members =>
      obtain ⟨inUse, hfound⟩ := exists_inStep_moduleVertices c before
        ((members.files ++ members.packages).filterMap (moduleName? c.files c.searchPath))
      refine ⟨inUse, fun token token' => InStep.searchPath.bind ?_⟩
      rintro _ _ ⟨rfl, rfl⟩
      apply InStep.files.bind
      rintro _ _ ⟨rfl, rfl⟩
      rw [hlisted]
      dsimp only
      cases members.warning? package with
      | none => exact hfound token token'
      | some warning => exact (InStep.log _ _).bind fun _ _ _ => hfound token token'

end Search

/-! ### Children -/

namespace Finding

section Asking

variable (q q' : Question) (hq : ∀ x, searchPathFor x q = x) (hq' : ∀ x, searchPathFor x q' = x) {γ : Type}
  {P : q.Answer → γ → Prop} {P' : q'.Answer → γ → Prop} {b : ExceptT ProviderError Id γ}
  {R : q.Answer → q'.Answer → Prop} (h : Mirrors c.files searchPath P ((indexed c.files searchPath).answer q) b)
  (h' : Mirrors c.files searchPath P' ((indexed c.files searchPath).answer q') b)
  (hR : ∀ a a' z, b = .ok z → P a z → P' a' z → R a a')

include hq hq' h h' hR

/-- Questions on no search path of their own that mirror one computation. -/
theorem InStep.ask :
  InStep c token token' (· = searchPath) (· = searchPath) W R (Finding.ask q (some token))
    (Finding.ask q' (some token'))
  := by
  apply Search.InStep.ask q q' _ h h' hR (by simp) (by simp)
  rintro _ rfl
  exact ⟨hq _, hq' _⟩

@[inherit_doc InStep.ask]
theorem InStep.askContained {default : q.Answer} {default' : q'.Answer} (hdefault : R default default')
    (context context' : String) :
  InStep c token token' (· = searchPath) (· = searchPath) W R (Finding.askContained q token default context)
    (Finding.askContained q' token' default' context')
  :=
  .lift_bind (InStep.ask q q' hq hq' h h' hR) fun _ _ hr => .contained hr hdefault context context'

end Asking

theorem inStep_sitesVertices {sites sites' : List CallSite} (h : List.Forall₂ (CallSite.Alike c.files) sites sites') :
  InStep c token token' (· = searchPath) (· = searchPath) W (List.Forall₂ Vertex.LooksLike)
    (sitesVertices token sites) (sitesVertices token' sites')
  := by
  induction h with
  | nil => exact .pure .nil
  | @cons s t sites sites' hs _ ih =>
    unfold sitesVertices
    apply InStep.checkpoint_bind
    have htargets : InStep c token token' (· = searchPath) (· = searchPath) W
        (List.Forall₂ (Definition.Alike c.files))
        (Finding.askContained (.targets s) token [] s!"while finding definitions of {s.name}")
        (Finding.askContained (.targets t) token' [] s!"while finding definitions of {t.name}") :=
      .askContained (.targets s) (.targets t) (fun _ => rfl) (fun _ => rfl) (mirrors_targets hs)
        (mirrors_targets (.refl t)) (fun _ _ _ _ h h' => forall₂_join h h' fun _ _ _ => Definition.Alike.join) .nil _ _
    apply htargets.bind
    intro ds ds' hds
    apply ih.bind
    intro vs vs' hvs
    exact .pure (List.rel_append (looksLike_siteVertices hs hds) hvs)

theorem inStep_callSiteVertices (d : Definition) :
  InStep c token token' (· = searchPath) (· = searchPath) W (List.Forall₂ Vertex.LooksLike)
    (callSiteVertices d token) (callSiteVertices d token')
  := by
  have hsites : InStep c token token' (· = searchPath) (· = searchPath) W (List.Forall₂ (CallSite.Alike c.files))
      (Finding.ask (.callSites d) (some token)) (Finding.ask (.callSites d) (some token')) :=
    .ask (.callSites d) (.callSites d) (fun _ => rfl) (fun _ => rfl) (mirrors_callSites (.refl d))
      (mirrors_callSites (.refl d))
      fun _ _ _ _ h h' => forall₂_join h h' fun _ _ _ => CallSite.Alike.join
  exact hsites.bind fun _ _ => inStep_sitesVertices

theorem inStep_scopeNameVertices (d : Definition) :
  InStep c token token' (· = searchPath) (· = searchPath) W (List.Forall₂ Vertex.LooksLike)
    (scopeNameVertices d token) (scopeNameVertices d token')
  := by
  have hnames : InStep c token token' (· = searchPath) (· = searchPath) W (List.Forall₂ (ScopeName.Alike c.files))
      (Finding.ask (.scopeNames d) (some token)) (Finding.ask (.scopeNames d) (some token')) :=
    .ask (.scopeNames d) (.scopeNames d) (fun _ => rfl) (fun _ => rfl) (mirrors_scopeNames d) (mirrors_scopeNames d)
      fun _ _ _ _ h h' => forall₂_join h h' fun _ _ _ => ScopeName.Alike.join
  exact hnames.bind fun _ _ hns => .checkpoint_bind (.pure (looksLike_nameVertices hns))

/-- Looking for the children of a vertex again. -/
theorem exists_inStep_children (c : Scene) (before : List Path) (v : Vertex) :
  ∃ inUse, ∀ token token', InStep c token token' (fun x => x = before ∨ x = inUse) (· = inUse) (fun _ => True)
    (List.Forall₂ Vertex.LooksLike) (children v token) (children v token')
  := by
  have hnone (token token' : Token) : InStep c token token' (fun x => x = before ∨ x = before) (· = before)
      (fun _ => True) (List.Forall₂ Vertex.LooksLike) (Pure.pure []) (Pure.pure []) :=
    (Search.InStep.pure (.ok .nil)).withInUse fun x hx => hx.elim id id
  have hmembers : ∃ inUse, ∀ token token', InStep c token token' (fun x => x = before ∨ x = inUse) (· = inUse)
      (fun _ => True) (List.Forall₂ Vertex.LooksLike) (memberVertices v token) (memberVertices v token') := by
    unfold memberVertices
    cases v.packageMarker? with
    | none => exact ⟨before, hnone⟩
    | some marker =>
      obtain ⟨inUse, hmembers⟩ := Search.exists_inStep_memberVertices c before marker v.element.name
      refine ⟨inUse, fun token token' => (InStep.lift_bind (hmembers token token')) fun vs vs' hvs => ?_⟩
      exact .checkpoint_bind (.pure hvs)
  unfold children
  cases v.definition with
  | none => exact ⟨before, hnone⟩
  | some d =>
    obtain ⟨inUse, hmembers⟩ := hmembers
    refine ⟨inUse, fun token token' => .checkpoint_bind ((hmembers token token').bind fun vs vs' hvs => ?_)⟩
    apply InStep.lift_bind Search.InStep.config
    rintro values values' ⟨hmode, hmode'⟩
    rw [hmode, hmode']
    split
    · exact (inStep_scopeNameVertices d).bind fun _ _ hinside => .pure (List.rel_append hvs hinside)
    · exact (inStep_callSiteVertices d).bind fun _ _ hinside => .pure (List.rel_append hvs hinside)

end Finding

end CallGraph
