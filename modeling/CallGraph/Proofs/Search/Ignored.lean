import CallGraph.Proofs.Search.Sites

/-!
# Builtins among the children

Some builtins are not worth showing.  In the experimental mode no name in a scope that stands for one of them is shown;
otherwise the first target of a call is not shown if it is one of them.  But a target that is not the first has its
number behind its name before it is looked at, so that a builtin gets through in this place.
-/

namespace CallGraph

variable {σ α β : Type} {admits : Admission} {token : Token}

/-- Whether a definition is a builtin that is not worth showing. -/
def Definition.isIgnored (d : Definition) : Bool :=
  Builtins.isIgnored d.module d.name

namespace Vertex

/-- A vertex that has a property together with its definition if this is a builtin that is not worth showing. -/
def ShowsIgnoredOnly (P : Vertex → Definition → Prop) (v : Vertex) : Prop :=
  ∀ d, v.definition = some d → d.isIgnored = true → P v d

/-- The vertex of a member of a package. -/
def IsMember (v : Vertex) (d : Definition) : Prop :=
  v = .ofDefinition .definition ⟨d.path, .known 1 0, .unknown⟩ d

/-- The vertex of a target that is not the first of its site. -/
def IsFurther (v : Vertex) (d : Definition) : Prop :=
  ∃ (site : CallSite) (k : Nat), v = targetVertex site (k + 1) d

theorem ShowsIgnoredOnly.imp {P Q : Vertex → Definition → Prop} {v : Vertex} (h : v.ShowsIgnoredOnly P)
    (hPQ : ∀ d, P v d → Q v d) :
  v.ShowsIgnoredOnly Q
  :=
  fun d hd hignored => hPQ d (h d hd hignored)

end Vertex

/-- Of the vertices of a call site only those of further targets are not looked at by the names of their definitions. -/
theorem SiteReply.showsIgnoredOnly_of_mem_group {r : SiteReply} {v : Vertex} (h : v ∈ r.group) :
  v.ShowsIgnoredOnly Vertex.IsFurther
  := by
  rcases of_mem_group h with rfl | ⟨⟨d, i⟩, _, rfl, hshown⟩
  · rintro d ⟨⟩
  · rintro d ⟨⟩ hignored
    cases i with
    | zero =>
      rw [Vertex.isShown] at hshown
      rw [Definition.isIgnored] at hignored
      have hname : (targetVertex r.1 0 d).element.name = d.name := rfl
      have hmodule : (targetVertex r.1 0 d).element.module = d.module := rfl
      rw [hname, hmodule, hignored] at hshown
      cases hshown
    | succ k => exact ⟨r.1, k, rfl⟩

/-- Names that stand for builtins which are not worth showing are left out. -/
theorem isIgnored_of_mem_nameVertices {names : List ScopeName} {v : Vertex} (h : v ∈ nameVertices names)
    {d : Definition} (hd : v.definition = some d) :
  d.isIgnored = false
  := by
  obtain ⟨n, hn, rfl⟩ := List.mem_map.mp h
  cases hd
  exact (Bool.not_eq_true' _).mp (List.mem_filter.mp hn).2

/-! ### Searches -/

namespace Finding

/-- Whatever a search finds has a property. -/
def Gives (admits : Admission) (s : Finding α) (P : α → Prop) : Prop :=
  s.run.Yields admits fun result _ => ∀ a, result = .ok a → P a

variable {P : α → Prop} {Q : β → Prop}

theorem gives_pure (a : α) (h : P a) :
  (pure a : Finding α).Gives admits P
  := by
  rintro _ ⟨⟩
  exact h

/-- One search after the other. -/
theorem Gives.bind {s : Finding α} {f : α → Finding β} (h : s.Gives admits P)
    (hf : ∀ a, P a → (f a).Gives admits Q) :
  (s >>= f).Gives admits Q
  := by
  apply Search.Yields.bind h
  intro result t hresult
  cases result with
  | ok a => exact hf a (hresult a rfl)
  | error e => exact Search.yields_pure _ nofun

/-- One search after any other. -/
theorem gives_bind (s : Finding α) {f : α → Finding β} (hf : ∀ a, (f a).Gives admits Q) :
  (s >>= f).Gives admits Q
  := by
  have htrivial : s.Gives admits fun _ => True := Search.yields_of_forall _ fun _ _ _ _ => trivial
  exact htrivial.bind fun a _ => hf a

theorem gives_sitesVertices (sites : List CallSite) :
  (sitesVertices token sites).Gives admits fun vs => ∀ v ∈ vs, v.ShowsIgnoredOnly Vertex.IsFurther
  := by
  induction sites with
  | nil => exact gives_pure [] (List.forall_mem_nil _)
  | cons site sites ih =>
    apply gives_bind
    intro _
    apply gives_bind
    intro targets
    apply ih.bind
    intro rest hrest
    apply gives_pure
    rw [List.forall_mem_append]
    refine ⟨fun v hv => ?_, hrest⟩
    exact SiteReply.showsIgnoredOnly_of_mem_group (r := (site, .ok targets)) (siteVertices_eq (site, .ok targets) ▸ hv)

theorem gives_callSiteVertices (scope : Definition) :
  (callSiteVertices scope token).Gives admits fun vs => ∀ v ∈ vs, v.ShowsIgnoredOnly Vertex.IsFurther
  :=
  gives_bind _ gives_sitesVertices

theorem gives_scopeNameVertices (scope : Definition) :
  (scopeNameVertices scope token).Gives admits fun vs => ∀ v ∈ vs, v.ShowsIgnoredOnly fun _ _ => False
  := by
  apply gives_bind
  intro names
  apply gives_bind
  intro _
  apply gives_pure
  intro v hv d hd hignored
  rw [isIgnored_of_mem_nameVertices hv hd] at hignored
  cases hignored

theorem gives_request (r : Request) :
  (request r).Gives admits fun reply => admits r reply = true
  := by
  intro reply hreply
  rintro _ ⟨⟩
  exact hreply

/-- What stands inside a scope, in the one mode or the other. -/
theorem gives_insideVertices {experimental : Bool} (scope : Definition) {members : List Vertex}
    {P : Vertex → Definition → Prop} (hmembers : ∀ v ∈ members, v.ShowsIgnoredOnly P) :
  (insideVertices scope token members).Gives (.ofMode experimental) fun vs => ∀ v ∈ vs,
    v.ShowsIgnoredOnly fun v d => P v d ∨ experimental = false ∧ v.IsFurther d
  := by
  have happend {inside : List Vertex} {P' : Vertex → Definition → Prop}
      (hinside : ∀ v ∈ inside, v.ShowsIgnoredOnly P')
      (hP' : ∀ v d, P' v d → experimental = false ∧ v.IsFurther d) :
      (pure (members ++ inside) : Finding (List Vertex)).Gives (.ofMode experimental) fun vs => ∀ v ∈ vs,
        v.ShowsIgnoredOnly fun v d => P v d ∨ experimental = false ∧ v.IsFurther d := by
    apply gives_pure
    rw [List.forall_mem_append]
    exact ⟨fun v hv => (hmembers v hv).imp fun _ => .inl, fun v hv => (hinside v hv).imp fun d hd => .inr (hP' v d hd)⟩
  apply (gives_request .config).bind
  intro values hmode
  have hmode : values.experimentalMode = experimental := eq_of_beq hmode
  dsimp only
  rw [hmode]
  cases experimental with
  | true => exact (gives_scopeNameVertices scope).bind fun inside hinside => happend hinside fun _ _ => False.elim
  | false => exact (gives_callSiteVertices scope).bind fun inside hinside => happend hinside fun _ _ => .intro rfl

end Finding

namespace Search

/-- The vertex that is made of the definition of a module is a member. -/
theorem isMember_of_made {d d' : Definition} {v : Vertex} {file : Option Path} (hpath : d.path = file)
    (hv : .ok (.ofDefinition .definition ⟨file, .known 1 0, .unknown⟩ d) = (.ok v : Except ResolutionError Vertex))
    (hd : v.definition = some d') :
  v.IsMember d'
  := by
  subst hpath
  rw [← Except.ok.inj hv] at hd ⊢
  rw [← Option.some.inj hd]
  rfl

/-- The vertex of a module is a member. -/
theorem yields_moduleVertex (searchPath : List Path) (name : String) :
  (moduleVertex searchPath name).Yields admits fun first _ =>
    ∀ v, first = .ok v → ∀ d, v.definition = some d → v.IsMember d
  := by
  unfold moduleVertex
  apply yields_bind
  intro result _
  split
  · rintro _ ⟨⟩
  · rintro _ ⟨⟩
  · rename_i d
    generalize hpath : d.path = file
    cases file with
    | none => exact fun v hv d' hd' => isMember_of_made hpath hv hd'
    | some file => exact fun _ _ v hv d' hd' => isMember_of_made hpath hv hd'

theorem yields_moduleVertices (searchPath : List Path) (names : List String) :
  (moduleVertices searchPath names).Yields admits fun vs _ => ∀ v ∈ vs, ∀ d, v.definition = some d → v.IsMember d
  := by
  induction names with
  | nil => exact List.forall_mem_nil _
  | cons name names ih =>
    apply (yields_moduleVertex searchPath name).bind
    intro first _ hfirst
    apply ih.bind
    intro rest _ hrest
    cases first with
    | error e => exact hrest
    | ok v => exact List.forall_mem_cons.mpr ⟨hfirst v rfl, hrest⟩

/-- The members of a package. -/
theorem yields_memberVertices (marker : Path) (package : String) :
  (memberVertices marker package).Yields admits fun vs _ => ∀ v ∈ vs, ∀ d, v.definition = some d → v.IsMember d
  := by
  unfold memberVertices
  split
  · exact List.forall_mem_nil _
  · apply yields_bind
    intro searchPath _
    apply yields_bind
    intro tree _
    split
    · exact yields_bind _ fun _ _ => List.forall_mem_nil _
    · rename_i members _
      cases members.warning? package with
      | none => exact yields_moduleVertices _ _
      | some warning => exact yields_bind _ fun _ _ => yields_moduleVertices _ _

end Search

/-! ### Children -/

namespace Finding

/-- Only a package has members. -/
theorem gives_memberVertices (v : Vertex) :
  (memberVertices v token).Gives admits fun us => ∀ u ∈ us,
    u.ShowsIgnoredOnly fun u d => v.packageMarker?.isSome ∧ u.IsMember d
  := by
  unfold memberVertices
  cases hmarker : v.packageMarker? with
  | none => exact gives_pure [] (List.forall_mem_nil _)
  | some marker =>
    have hmembers : Gives admits (ExceptT.lift (Search.memberVertices marker v.element.name)) fun us =>
        ∀ u ∈ us, ∀ d, u.definition = some d → u.IsMember d := by
      apply (Search.yields_memberVertices marker v.element.name).bind
      rintro us _ hus _ ⟨⟩
      exact hus
    apply hmembers.bind
    intro us hus
    apply gives_bind
    intro _
    exact gives_pure us fun u hu d hd _ => ⟨rfl, hus u hu d hd⟩

/-- The children of a vertex that show builtins not worth it are members of a package, or targets that are not the
first of their sites. -/
theorem gives_children (experimental : Bool) (v : Vertex) (token : Token) :
  (children v token).Gives (.ofMode experimental) fun us => ∀ u ∈ us, u.ShowsIgnoredOnly fun u d =>
    (v.packageMarker?.isSome ∧ u.IsMember d) ∨ experimental = false ∧ u.IsFurther d
  := by
  cases hd : v.definition with
  | none =>
    unfold children
    rw [hd]
    exact gives_pure [] (List.forall_mem_nil _)
  | some d =>
    rw [children_eq hd]
    apply gives_bind
    intro _
    exact (gives_memberVertices v).bind fun members hmembers => gives_insideVertices d hmembers

end Finding

namespace Node

/-- The vertices of rows are those that became rows. -/
theorem mem_of_mem_numbered {number number' : Nat} {vs : List Vertex} {u : Vertex}
    (h : analyzed number' u ∈ numbered number vs) :
  u ∈ vs
  := by
  induction vs generalizing number with
  | nil => cases h
  | cons v vs ih =>
    rcases List.mem_cons.mp h with hfirst | hrest
    · cases hfirst
      exact List.mem_cons_self
    · exact List.mem_cons_of_mem v (ih hrest)

/-- A child of a node shows a builtin that is not worth showing only as a member of a package, or, out of the
experimental mode, as a target that is not the first of its site, with a number behind its name. -/
theorem children_ignored (w : Workspace σ) (number : Nat) (v : Vertex) (caller : Token) {number' : Nat} {u : Vertex}
    (hchild : analyzed number' u ∈ (w.run ((analyzed number v).children caller)).1) {d : Definition}
    (hd : u.definition = some d) (hignored : d.isIgnored = true) :
  (v.packageMarker?.isSome ∧ u = .ofDefinition .definition ⟨d.path, .known 1 0, .unknown⟩ d) ∨
    w.getConfig.1.experimentalMode = false ∧
      ∃ (site : CallSite) (k : Nat), u = targetVertex site (k + 1) d ∧ u.element.name = s!"{d.name} ({k + 2})"
  := by
  have hrun : w.run ((analyzed number v).children caller) =
      (w.run (v.children caller)).2.run (Search.nodes (w.run (v.children caller)).1) := Workspace.run_bind _ _ _
  rw [hrun, Workspace.run_nodes_eq_numbered] at hchild
  have hu := mem_of_mem_numbered hchild
  rw [Vertex.children, Workspace.run_neighbours] at hu
  set w' := (w.perform (.enter caller)).2
  have hconfig : w'.getConfig.1 = w.getConfig.1 := w.getConfig_perform (.enter caller)
  have hgives := (Finding.gives_children w'.getConfig.1.experimentalMode v (w.perform (.enter caller)).1).run
    (w'.grants_ofMode _)
  cases hresult : (w'.run (Finding.children v (w.perform (.enter caller)).1).run).1 with
  | error e =>
    rw [hresult] at hu
    cases hu
  | ok us =>
    rw [hresult] at hu
    rw [← hconfig]
    rcases hgives us hresult u hu d hd hignored with hmember | ⟨hmode, site, k, rfl⟩
    · exact .inl hmember
    · exact .inr ⟨hmode, site, k, rfl, rfl⟩

/-- A function. -/
def overloadedCaller : Vertex :=
  .ofDefinition .definition ⟨some ⟨"m.py"⟩, .known 1 4, .known 1 5⟩ (.function "f" "m" ⟨"m.py"⟩ 1)

/-- The function calls something of which a definition and a builtin are found. -/
def overloaded : Workspace Scripted where
  provider := Scripted.provider
  analysis := ({} : Scripted).addCallSite "f" (.plain "print" ⟨"m.py"⟩ 2 4)
    [.function "print" "a" ⟨"a.py"⟩ 1, .function "print" "builtins" ⟨"builtins.py"⟩ 1]
  files := {}
  config := {}

/-- A row that shows a builtin which is not worth showing. -/
def showsIgnored : Node → Bool
  | analyzed _ u => u.definition.any Definition.isIgnored
  | organizer _ _ _ _ => false

theorem exists_ignored_overloaded :
  ∃ number u d, analyzed number u ∈ (overloaded.run ((analyzed 0 overloadedCaller).children (.root 0))).1 ∧
    u.definition = some d ∧ d.isIgnored = true
  := by
  have hshown : (overloaded.run ((analyzed 0 overloadedCaller).children (.root 0))).1.any showsIgnored = true := by
    decide +kernel
  obtain ⟨n, hchild, hshows⟩ := List.any_eq_true.mp hshown
  cases n with
  | organizer number element parents children => cases hshows
  | analyzed number u =>
    rw [showsIgnored] at hshows
    cases hd : u.definition with
    | none =>
      rw [hd] at hshows
      cases hshows
    | some d =>
      rw [hd] at hshows
      exact ⟨number, u, d, hchild, hd, hshows⟩

/-- The builtin, which is shown under a number, is a target that is not the first. -/
theorem children_ignored_overloaded :
  ∃ (number : Nat) (u : Vertex) (d : Definition),
    analyzed number u ∈ (overloaded.run ((analyzed 0 overloadedCaller).children (.root 0))).1 ∧
    u.definition = some d ∧ d.isIgnored = true ∧
    ((overloadedCaller.packageMarker?.isSome ∧
        u = .ofDefinition .definition ⟨d.path, .known 1 0, .unknown⟩ d) ∨
      overloaded.getConfig.1.experimentalMode = false ∧
        ∃ (site : CallSite) (k : Nat), u = targetVertex site (k + 1) d ∧ u.element.name = s!"{d.name} ({k + 2})")
  := by
  obtain ⟨number, u, d, hchild, hd, hignored⟩ := exists_ignored_overloaded
  exact ⟨number, u, d, hchild, hd, hignored,
    children_ignored overloaded 0 overloadedCaller (.root 0) hchild hd hignored⟩

/-- Not every child is worth showing: among those of the function is a builtin that is not. -/
theorem not_shown_overloaded :
  ¬ ∀ number u d, analyzed number u ∈ (overloaded.run ((analyzed 0 overloadedCaller).children (.root 0))).1 →
    u.definition = some d → Builtins.isIgnored d.module d.name = false
  := by
  intro hnever
  obtain ⟨number, u, d, hchild, hd, hignored⟩ := exists_ignored_overloaded
  rw [Definition.isIgnored, hnever number u d hchild hd] at hignored
  cases hignored

end Node

end CallGraph
