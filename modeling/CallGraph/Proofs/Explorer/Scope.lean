import CallGraph.Proofs.Explorer.Operations
import CallGraph.Proofs.Frontier.Recorded
import CallGraph.Proofs.Search.Independent
import CallGraph.Proofs.Settings.Kept

/-!
# The files searched for usages, over a whole session

Whatever happens in a session, the scope covers the roots: it holds the file of every tracked module and script.  When
the roots are resolved again, or the tracked modules or scripts are replaced, it holds these files and no others; all
other actions leave in it what it holds, and add only files of definitions that the provider returned meanwhile, as
scopes around usages or as what the names of members of packages stand for.  To say what the provider returned
meanwhile, the action is carried out once more with the provider recorded.
-/

namespace CallGraph

variable {σ δ : Type}

namespace Project

/-- The scope holds the files of all roots. -/
def IsCoveredBy (p : Project δ) (s : SearchScope) : Prop :=
  ∀ node ∈ p.rootNodes, ∀ path ∈ node.element.path, s.contains path = true

/-- The scope holds the files of all roots and no others. -/
structure HasScope (p : Project δ) (s : SearchScope) : Prop where
  covered : p.IsCoveredBy s
  only : ∀ q ∈ s.files, ∃ node ∈ p.rootNodes, node.element.path = some q

end Project

/-- The replacements with which the scope starts anew: those of modules, scripts, and another search path. -/
def Replacement.Resets (p : Project δ) : Replacement → Prop
  | modules _ | scripts _ => True
  | sysPath new => (new == p.settings.sysPath) = false
  | directory _ | bookmarks _ | files _ => False

/-- What is done to a project and to a navigation over it, by callers or by workers. -/
inductive Action where
  | rebuild
  | replace (category : Category) (value : Json)
  | merge (values : List (Category × Json))
  | loadScope (scope : ScopeSettings)
  | move (directory : Option Path)
  | persist
  | addBookmark (bookmark : Bookmark)
  | removeBookmark (index : Nat)
  | explore
  | setRoots (nodes : List Node)
  | addRoots (nodes : List Node)
  | removeRoots (nodes : List Node)
  | focus (column : Nat)
  | autoHighlight (enabled : Bool)
  | select (strict : Bool) (column row : Nat)
  | openBookmark (bookmark : Bookmark)
  | stepExpansion
  | stepRender
  | children (node : Node) (caller : Token)
  | parents (node : Node) (caller : Token)
  | next (node : Node) (caller : Token)

/-- The actions with which the scope starts anew: the roots are resolved again, or settings are accepted for which
other roots are tracked. -/
def Action.Resets (p : Project δ) : Action → Prop
  | rebuild => True
  | replace category value => ∃ new, Replacement.ofValue value category = .ok new ∧ new.Resets p
  | _ => False

namespace Explorer

/-- Carries out an action. -/
def act [SettingsStore δ] (x : Explorer σ δ) : Action → Explorer σ δ
  | .rebuild =>
    let (project, w) := x.project.rebuild x.workspace
    { x with project }.withWorkspace w
  | .replace category value =>
    match x.project.setSettings category value x.workspace with
    | .ok (_, project, w) => { x with project }.withWorkspace w
    | .error _ => x
  | .merge values => { x with project := (x.project.mergeValues values).2 }
  | .loadScope scope =>
    let (project, w) := x.project.loadScope scope x.workspace
    { x with project }.withWorkspace w
  | .move directory => { x with project := x.project.setDirectory directory }
  | .persist => x.persist.2
  | .addBookmark bookmark => { x with project := x.project.addBookmark bookmark }
  | .removeBookmark index => { x with project := (x.project.removeBookmark index).2 }
  | .explore => ofProject x.project x.workspace
  | .setRoots nodes => { x with navigation := x.navigation.setRoots nodes }
  | .addRoots nodes => { x with navigation := x.navigation.addRoots nodes }
  | .removeRoots nodes => { x with navigation := x.navigation.removeRoots nodes }
  | .focus column => { x with navigation := x.navigation.focus column }
  | .autoHighlight enabled => { x with navigation := x.navigation.setAutoHighlight enabled }
  | .select strict column row => { x with navigation := (x.navigation.selectWith strict column row).2 }
  | .openBookmark bookmark => { x with navigation := (x.navigation.openBookmark bookmark).2 }
  | .stepExpansion => { x with navigation := x.navigation.stepExpansion }
  | .stepRender => { x with navigation := x.navigation.stepRender }
  | .children node caller => x.withWorkspace (x.workspace.run (node.children caller)).2
  | .parents node caller => x.withWorkspace (x.workspace.run (node.parents caller)).2
  | .next node caller => x.withWorkspace (x.workspace.run (node.next caller)).2

/-- An explorer whose provider is recorded, and what it returned so far. -/
def recorded (x : Explorer σ δ) (returned : List Definition) : Explorer (Recorded σ) δ :=
  ⟨x.project, x.navigation.recorded returned⟩

/-- The definitions that the provider returns in the course of an action, as scopes around usages and as what module
names stand for. -/
def returned [SettingsStore δ] (x : Explorer σ δ) (a : Action) : List Definition :=
  ((x.recorded []).act a).workspace.analysis.returned

/-- What comes of new or opened projects as they are acted on, while whatever happens elsewhere leaves their scope
alone. -/
inductive Reachable [SettingsStore δ] : Explorer σ δ → Prop where
  | new (store : δ) (w : Workspace σ) (cacheSize : Nat) :
      Reachable ⟨{ store }, ⟨w, .empty cacheSize⟩⟩
  | opened {store : δ} {directory : Option Path} {user : UserScope} {runtime : List Path}
      {w w' : Workspace σ} {p : Project δ} (opened : Project.openStored store directory user runtime w = (.ok p, w'))
      (cacheSize : Nat) : Reachable ⟨p, ⟨w', .empty cacheSize⟩⟩
  | act {x : Explorer σ δ} (h : Reachable x) (a : Action) : Reachable (x.act a)
  | elsewhere {x : Explorer σ δ} (h : Reachable x) {w : Workspace σ} (scope : w.scope = x.workspace.scope) :
      Reachable (x.withWorkspace w)

end Explorer

/-! ### Scopes that start anew -/

theorem Project.IsCoveredBy.mono {p p' : Project δ} {s s' : SearchScope} (h : p.IsCoveredBy s)
    (hroots : p'.rootNodes = p.rootNodes) (hfiles : s.files ⊆ s'.files) :
  p'.IsCoveredBy s'
  := by
  intro node hnode path hpath
  rw [hroots] at hnode
  have hcontains := h node hnode path hpath
  rw [SearchScope.contains_iff] at hcontains ⊢
  exact hcontains.imp fun _ => And.imp_left (hfiles ·)

/-- The files of the roots are searched, and no others. -/
theorem Project.hasScope_refreshScope (p : Project δ) (w : Workspace σ) :
  p.HasScope (p.refreshScope w).scope
  where
  covered node hnode path hpath :=
    SearchScope.contains_insertAll_of_mem (List.mem_filterMap.mpr ⟨node, hnode, hpath⟩)
  only q hq := by
    rcases SearchScope.mem_insertAll hq with hq | hq
    · cases hq
    · exact List.mem_filterMap.mp hq

theorem Project.hasScope_rebuild (p : Project δ) (w : Workspace σ) :
  (p.rebuild w).1.HasScope (p.rebuild w).2.scope
  :=
  hasScope_refreshScope _ _

/-- A replacement with which the scope starts anew. -/
theorem Project.hasScope_replace [SettingsStore δ] {p : Project δ} {new : Replacement} (h : new.Resets p)
    (w : Workspace σ) :
  (p.replace w new).2.1.HasScope (p.replace w new).2.2.scope
  := by
  cases new with
  | modules new => exact hasScope_refreshScope _ _
  | scripts new => exact hasScope_refreshScope _ _
  | sysPath new =>
    have hnew : (new == p.settings.sysPath) = false := h
    rw [replace, setSearchPath, hnew]
    exact hasScope_rebuild _ w
  | directory new => exact h.elim
  | bookmarks new => exact h.elim
  | files new => exact h.elim

/-- A replacement that resolves nothing changes neither the roots nor the workspace. -/
theorem Project.replace_of_not_resets [SettingsStore δ] {p : Project δ} {new : Replacement} (h : ¬ new.Resets p) :
  ∃ change p', p'.rootNodes = p.rootNodes ∧ ∀ {τ : Type} (w : Workspace τ), p.replace w new = (change, p', w)
  := by
  cases new with
  | modules new => exact absurd trivial h
  | scripts new => exact absurd trivial h
  | sysPath new =>
    have hnew : (new == p.settings.sysPath) = true := Bool.of_not_eq_false h
    refine ⟨{ changed := false }, p, rfl, fun w => ?_⟩
    rw [replace, setSearchPath, hnew]
    rfl
  | directory new =>
    refine ⟨_, p.setDirectory new, ?_, fun w => rfl⟩
    unfold setDirectory
    split
    · rfl
    · rfl
  | bookmarks new => exact ⟨_, { p with settings := { p.settings with bookmarks := new } }, rfl, fun w => rfl⟩
  | files new => exact ⟨_, { p with settings := { p.settings with files := new } }, rfl, fun w => rfl⟩

theorem Project.rootNodes_setDirectory [SettingsStore δ] (p : Project δ) (directory : Option Path) :
  (p.setDirectory directory).rootNodes = p.rootNodes
  := by
  unfold setDirectory
  split
  · rfl
  · rfl

/-- Values that are merged do not change the roots. -/
theorem Project.rootNodes_mergeValues [SettingsStore δ] (p : Project δ) (values : List (Category × Json)) :
  (p.mergeValues values).2.rootNodes = p.rootNodes
  := by
  induction values generalizing p with
  | nil => rfl
  | cons first rest ih =>
    obtain ⟨category, value⟩ := first
    rw [mergeValues]
    cases hmerge : p.mergeValue category value with
    | error e => rfl
    | ok p' =>
      apply (ih p').trans
      obtain ⟨place, rfl⟩ | ⟨settings, rfl, -⟩ := cases_of_mergeValue hmerge
      · apply rootNodes_setDirectory
      · rfl

/-- A project that was opened has the files of its roots searched, and no others. -/
theorem Project.hasScope_openStored [SettingsStore δ] {store : δ} {directory : Option Path} {user : UserScope}
    {runtime : List Path} {w w' : Workspace σ} {p : Project δ}
    (h : openStored store directory user runtime w = (.ok p, w')) :
  p.HasScope w'.scope
  := by
  obtain ⟨-, -, loaded, log, -, -, -, hpersist⟩ := exists_of_openStored h
  have hscope := hasScope_rebuild loaded { w with searchPath := loaded.settings.sysPath, log }
  obtain ⟨result, store', files, hstored⟩ :=
    exists_persistCategories (rebuild loaded _).1 (rebuild loaded _).2 Category.all
  rw [persist, hstored] at hpersist
  cases hpersist
  exact ⟨hscope.covered, hscope.only⟩

/-! ### Scopes that grow -/

/-- Settings are stored as without the record. -/
theorem Project.persistCategories_recorded [SettingsStore δ] (p : Project δ) (w : Workspace σ)
    (returned : List Definition) (categories : List Category) :
  p.persistCategories (w.recorded returned) categories =
    ((p.persistCategories w categories).1, (p.persistCategories w categories).2.1,
      (p.persistCategories w categories).2.2.recorded returned)
  := by
  induction categories generalizing p w with
  | nil => rfl
  | cons category rest ih =>
    rw [persistCategories, persistCategories]
    dsimp only [Workspace.recorded]
    generalize SettingsStore.save p.store w.files category (p.value category true) = saved
    obtain ⟨result, store, files⟩ := saved
    cases result with
    | ok _ => exact ih { p with store } { w with files }
    | error e => rfl

namespace Explorer

/-- A recorded explorer that accounts for how the scope grew since it was `start`. -/
inductive Accounts (start : SearchScope) : Explorer σ δ → Explorer (Recorded σ) δ → Prop where
  | mk {project : Project δ} {n : Navigation σ} {m : Navigation (Recorded σ)}
      (navigation : Navigation.Accounts start n m) :
      Accounts start ⟨project, n⟩ ⟨project, m⟩

variable [SettingsStore δ] {start : SearchScope} {x : Explorer σ δ} {y : Explorer (Recorded σ) δ}

/-- An action with which the scope does not start anew changes no root, and what it adds to the scope is accounted
for. -/
theorem Accounts.act (h : Accounts start x y) {a : Action} (ha : ¬ a.Resets x.project) :
  (x.act a).project.rootNodes = x.project.rootNodes ∧ Accounts start (x.act a) (y.act a)
  := by
  obtain ⟨hn⟩ := h
  rename_i project n m
  cases a with
  | rebuild => exact absurd trivial ha
  | replace category value =>
    simp only [Explorer.act, Project.setSettings_eq]
    cases hnew : Replacement.ofValue value category with
    | error e => exact ⟨rfl, .mk hn⟩
    | ok new =>
      obtain ⟨change, project', hroots, hreplace⟩ := Project.replace_of_not_resets fun h => ha ⟨new, hnew, h⟩
      dsimp only [Except.map]
      rw [hreplace, hreplace]
      exact ⟨hroots, .mk hn⟩
  | merge values => exact ⟨project.rootNodes_mergeValues values, .mk hn⟩
  | loadScope scope =>
    obtain ⟨hgrows, htakesIn⟩ := hn
    exact ⟨rfl, .mk (.mk hgrows htakesIn)⟩
  | move directory => exact ⟨project.rootNodes_setDirectory directory, .mk hn⟩
  | persist =>
    obtain ⟨hgrows, htakesIn⟩ := hn
    rename_i returned
    obtain ⟨result, store, files, hstored⟩ := project.exists_persistCategories n.workspace Category.all
    have hrecorded := project.persistCategories_recorded n.workspace returned Category.all
    rw [hstored] at hrecorded
    simp only [Explorer.act, Explorer.persist, Project.persist, workspace, Navigation.recorded, hstored, hrecorded]
    exact ⟨rfl, .mk (.mk hgrows htakesIn)⟩
  | addBookmark bookmark => exact ⟨rfl, .mk hn⟩
  | removeBookmark index =>
    refine ⟨?_, .mk hn⟩
    change (project.removeBookmark index).2.rootNodes = _
    unfold Project.removeBookmark
    split
    · rfl
    · rfl
  | explore =>
    obtain ⟨hgrows, -⟩ := hn
    exact ⟨rfl, .mk (.mk hgrows (.of_idle rfl rfl))⟩
  | setRoots nodes => exact ⟨rfl, .mk (hn.setRoots nodes)⟩
  | addRoots nodes => exact ⟨rfl, .mk (hn.addRoots nodes)⟩
  | removeRoots nodes => exact ⟨rfl, .mk (hn.removeRoots nodes)⟩
  | focus column => exact ⟨rfl, .mk (hn.focus column)⟩
  | autoHighlight enabled => exact ⟨rfl, .mk (hn.setAutoHighlight enabled)⟩
  | select strict column row => exact ⟨rfl, .mk (hn.selectWith strict column row).2⟩
  | openBookmark bookmark => exact ⟨rfl, .mk (hn.follow 0 bookmark)⟩
  | stepExpansion => exact ⟨rfl, .mk hn.stepExpansion⟩
  | stepRender => exact ⟨rfl, .mk hn.stepRender⟩
  | children node caller => exact ⟨rfl, .mk (hn.run (node.takesIn_children caller)).2⟩
  | parents node caller => exact ⟨rfl, .mk (hn.run (node.takesIn_parents caller)).2⟩
  | next node caller => exact ⟨rfl, .mk (hn.run (node.takesIn_next caller)).2⟩

/-- With some actions the scope starts anew and holds the files of the roots. -/
theorem hasScope_act {a : Action} (ha : a.Resets x.project) :
  (x.act a).project.HasScope (x.act a).workspace.scope
  := by
  cases a with
  | rebuild => exact Project.hasScope_rebuild x.project x.workspace
  | replace category value =>
    obtain ⟨new, hnew, hresets⟩ := ha
    simp only [act, Project.setSettings_eq, hnew, Except.map]
    exact Project.hasScope_replace hresets x.workspace
  | _ => exact ha.elim

/-! ### Whole sessions -/

/-- The expansions that wait for their worker, or are under way, take in nothing but what they are going to be
given. -/
theorem takesIn_act {a : Action} (h : x.navigation.frontier.expansions.All Expansion.TakesIn) :
  (x.act a).navigation.frontier.expansions.All Expansion.TakesIn
  := by
  by_cases ha : a.Resets x.project
  · have hfrontier : (x.act a).navigation.frontier = x.navigation.frontier := by
      cases a with
      | rebuild => rfl
      | replace category value =>
        dsimp only [act]
        split
        · rfl
        · rfl
      | _ => exact ha.elim
    rw [hfrontier]
    exact h
  · have haccounts : Accounts x.workspace.scope x (x.recorded []) := .mk (.mk (.refl _ []) h)
    obtain ⟨-, hact⟩ := haccounts.act ha
    generalize x.act a = x', (x.recorded []).act a = y at hact
    obtain ⟨⟨hgrows, htakesIn⟩⟩ := hact
    exact htakesIn

/-- In every state that is reached the scope covers the roots, and expansions take in nothing but what they are going
to be given. -/
theorem Reachable.covers (h : x.Reachable) :
  x.project.IsCoveredBy x.workspace.scope ∧ x.navigation.frontier.expansions.All Expansion.TakesIn
  := by
  induction h with
  | new store w cacheSize => exact ⟨List.forall_mem_nil _, .of_idle rfl rfl⟩
  | opened hopened cacheSize => exact ⟨(Project.hasScope_openStored hopened).covered, .of_idle rfl rfl⟩
  | @act x h a ih =>
    refine ⟨?_, takesIn_act ih.2⟩
    by_cases ha : a.Resets x.project
    · exact (hasScope_act ha).covered
    · have haccounts : Accounts x.workspace.scope x (x.recorded []) := .mk (.mk (.refl _ []) ih.2)
      obtain ⟨hroots, hact⟩ := haccounts.act ha
      apply ih.1.mono hroots
      generalize x.act a = x', (x.recorded []).act a = y at hact
      obtain ⟨⟨hgrows, -⟩⟩ := hact
      exact hgrows.present
  | elsewhere h hscope ih =>
    refine ⟨?_, ih.2⟩
    apply ih.1.mono rfl
    rw [← hscope]
    apply List.Subset.refl

/-- The scope covers the roots throughout.  With an action that resolves the roots again, or by which other ones are
tracked, it starts anew from their files.  Any other action leaves it all files that it has, and adds only files of
definitions that the provider returned meanwhile, which makes no difference to it when it is recorded. -/
theorem Reachable.keepsScope (h : x.Reachable) (a : Action) :
  x.project.IsCoveredBy x.workspace.scope ∧
    (a.Resets x.project → (x.act a).project.HasScope (x.act a).workspace.scope) ∧
    (¬ a.Resets x.project →
      x.workspace.scope.GrowsTo (x.returned a) (x.act a).workspace.scope ∧
        (x.recorded []).act a = (x.act a).recorded (x.returned a))
  := by
  obtain ⟨hcovered, htakesIn⟩ := h.covers
  refine ⟨hcovered, hasScope_act, fun ha => ?_⟩
  have haccounts : Accounts x.workspace.scope x (x.recorded []) := .mk (.mk (.refl _ []) htakesIn)
  obtain ⟨-, hact⟩ := haccounts.act ha
  unfold returned
  generalize x.act a = x', (x.recorded []).act a = y at hact
  obtain ⟨⟨hgrows, -⟩⟩ := hact
  exact ⟨hgrows, rfl⟩

/-- Answers by which every name stands for one module, whose function is used in another one. -/
def trackedAnswers : (q : Question) → Except ProviderError q.Answer
  | .resolve _ _ => .ok (some ⟨"m", "module", "m", some ⟨"/m.py"⟩, .known 1 0, .unknown⟩)
  | q => usedAnswers q

/-- A new project that tracks one module. -/
def tracked : Explorer Unit MemoryStore :=
  ((⟨{ store := {} }, ⟨.fixed trackedAnswers, .empty 1⟩⟩ : Explorer Unit MemoryStore).act
    (.loadScope { moduleNames := ["m"], scripts := [], searchPath := [] })).act .rebuild

/-- The file of the module is searched, and once the parents of its function are found, theirs is, too. -/
theorem Reachable.keepsScope_tracked :
  tracked.Reachable ∧ tracked.project.IsCoveredBy tracked.workspace.scope ∧
    (tracked.act .rebuild).project.HasScope (tracked.act .rebuild).workspace.scope ∧
    tracked.workspace.scope.GrowsTo (tracked.returned (.parents usedFunction (.root 0)))
      (tracked.act (.parents usedFunction (.root 0))).workspace.scope ∧
    tracked.workspace.scope.files.map Path.spelling = ["/m.py"] ∧
    (tracked.act (.parents usedFunction (.root 0))).workspace.scope.files.map Path.spelling = ["/n.py", "/m.py"]
  := by
  have hreachable : tracked.Reachable := .act (.act (.new _ _ _) _) _
  obtain ⟨hcovered, hresets, -⟩ := hreachable.keepsScope .rebuild
  obtain ⟨-, -, hgrows⟩ := hreachable.keepsScope (.parents usedFunction (.root 0))
  exact ⟨hreachable, hcovered, hresets trivial, (hgrows id).1, by decide, by decide⟩

end Explorer

end CallGraph
