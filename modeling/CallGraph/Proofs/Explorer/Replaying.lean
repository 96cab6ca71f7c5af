import CallGraph.Proofs.Explorer.Operations
import CallGraph.Proofs.Frontier.Resting
import CallGraph.Proofs.Search.Offering
import CallGraph.Proofs.Settings.Shown

/-!
# Paths that are replayed

Without multithreading the columns of an explorer are in line whenever nothing is going on, and its roots show modules
and scripts that are tracked.  So if the provider answers as a fixed function that does not tell equal questions apart,
the files stay as they are, and the elements of vertices tell their definitions, then the path can be followed exactly
after all roots were resolved again, and so can one that was gone from roots that are still there.
-/

namespace CallGraph

variable {σ δ : Type} {A : Setting} {seen : FileTree → Path → Prop}

/-- The setting with another search path. -/
def Setting.along (A : Setting) (searchPath : List Path) : Setting :=
  { A with searchPath }

namespace Explorer

variable {x y z : Explorer σ δ}

/-- The search path of the settings. -/
def sysPath (x : Explorer σ δ) : List Path :=
  x.project.settings.sysPath

/-- The rows of column 0. -/
def roots (x : Explorer σ δ) : List Node :=
  x.navigation.frontier.roots

/-- The elements along the path. -/
def elementPath (x : Explorer σ δ) : List Element :=
  x.navigation.frontier.elementPath

/-- An explorer whose columns are in line from roots that show what its project tracks. -/
structure InLine (A : Setting) (seen : FileTree → Path → Prop) (x : Explorer σ δ) : Prop where
  tracked : x.project.IsTracked A.answers seen x.workspace
  inLine : x.navigation.InLine (A.along x.sysPath)
  shown : ∀ node ∈ x.roots, x.project.settings.Shows (A.along x.sysPath) seen node
  drawn : Node.Drawn 0 x.workspace.nextNode x.roots

/-- What is left of the roots of an explorer after something was done: others have later numbers, and so have all
if the search path changed. -/
structure Passes (x y : Explorer σ δ) : Prop where
  nextNode : x.workspace.nextNode ≤ y.workspace.nextNode
  roots : ∀ node ∈ y.roots, node ∈ x.roots ∨ x.workspace.nextNode ≤ node.number
  sysPath : y.sysPath = x.sysPath ∨ ∀ node ∈ y.roots, x.workspace.nextNode ≤ node.number

theorem Passes.refl (x : Explorer σ δ) :
  x.Passes x
  :=
  ⟨Nat.le_refl _, fun _ hnode => .inl hnode, .inl rfl⟩

theorem Passes.trans (h : x.Passes y) (h' : y.Passes z) :
  x.Passes z
  := by
  have hlater {node : Node} (hnode : y.workspace.nextNode ≤ node.number) : x.workspace.nextNode ≤ node.number :=
    Nat.le_trans h.nextNode hnode
  refine ⟨Nat.le_trans h.nextNode h'.nextNode, fun node hnode => ?_, ?_⟩
  · rcases h'.roots node hnode with hnode | hnode
    · exact h.roots node hnode
    · exact .inr (hlater hnode)
  · rcases h'.sysPath with hpath' | hall
    · rcases h.sysPath with hpath | hall
      · exact .inl (hpath'.trans hpath)
      · refine .inr fun node hnode => ?_
        rcases h'.roots node hnode with hnode | hnode
        · exact hall node hnode
        · exact hlater hnode
    · exact .inr fun node hnode => hlater (hall node hnode)

/-! ### What is done to the columns -/

namespace InLine

/-- The scripts that are tracked are seen among the files. -/
theorem among (h : x.InLine A seen) :
  ∀ path ∈ x.project.settings.scripts, seen A.files path
  :=
  h.inLine.fits.files ▸ h.tracked.among

theorem withNavigation (h : x.InLine A seen) {n : Navigation σ} (hgoes : x.navigation.GoesOn n)
    (hline : n.InLine (A.along x.sysPath)) :
  InLine A seen { x with navigation := n } ∧ x.Passes { x with navigation := n }
  := by
  have hroots : roots { x with navigation := n } = x.roots := hgoes.roots
  refine ⟨⟨⟨?_, ?_, h.tracked.modules, h.tracked.scripts⟩, hline, ?_, ?_⟩, hgoes.workspace.nextNode, ?_, .inl rfl⟩
  · exact hgoes.workspace.answers A.answers h.tracked.provider
  · exact fun path hpath => hgoes.workspace.files.symm ▸ h.tracked.among path hpath
  · exact fun node hnode => h.shown node (hroots ▸ hnode)
  · rw [hroots]
    exact h.drawn.mono (List.Subset.refl _) hgoes.workspace.nextNode
  · exact fun node hnode => .inl (hroots ▸ hnode)

theorem select (h : x.InLine A seen) (strict : Bool) (column row : Nat) :
  InLine A seen { x with navigation := (x.navigation.selectWith strict column row).2 } ∧
    x.Passes { x with navigation := (x.navigation.selectWith strict column row).2 }
  := by
  apply h.withNavigation (.selectWith strict x.navigation column row)
  cases strict with
  | false => exact h.inLine.select column row
  | true => exact h.inLine.selectStrict column row

theorem openBookmark (h : x.InLine A seen) (index : Nat) :
  (x.openBookmark index).2.InLine A seen ∧ x.Passes (x.openBookmark index).2
  := by
  unfold Explorer.openBookmark
  split
  · exact ⟨h, .refl x⟩
  · exact h.withNavigation (.openBookmark x.navigation _) (h.inLine.follow 0 _)

/-- Settings are changed that have no part in what is tracked. -/
theorem withSettings (h : x.InLine A seen) {p : Project δ} (hmodules : p.modules = x.project.modules)
    (hscripts : p.scripts = x.project.scripts) (hpath : p.settings.sysPath = x.project.settings.sysPath)
    (hnames : p.settings.modules = x.project.settings.modules)
    (hpaths : p.settings.scripts = x.project.settings.scripts) :
  InLine A seen { x with project := p } ∧ x.Passes { x with project := p }
  := by
  have hsysPath : sysPath { x with project := p } = x.sysPath := hpath
  refine ⟨⟨⟨h.tracked.provider, ?_, ?_, ?_⟩, ?_, ?_, h.drawn⟩, Nat.le_refl _, fun _ hnode => .inl hnode, .inl hpath⟩
  · rw [hpaths]
    exact h.tracked.among
  · rw [hmodules, hnames, hpath]
    exact h.tracked.modules
  · rw [hscripts, hpaths, hpath]
    exact h.tracked.scripts
  · rw [hsysPath]
    exact h.inLine
  · intro node hnode
    rw [hsysPath]
    cases h.shown node hnode with
    | module tracked shows => exact .module (hnames ▸ tracked) shows
    | script tracked hseen shows => exact .script (hpaths ▸ tracked) hseen shows

/-! ### Roots that are resolved again -/

/-- The roots of a project that was resolved again are shown. -/
theorem showRoots (h : x.InLine A seen) {p : Project δ} {w : Workspace σ}
    (hrebuilt : p.Rebuilt (A.along p.settings.sysPath) seen x.workspace w) (htracked : p.IsTracked A.answers seen w) :
  InLine A seen ⟨p, Navigation.setRoots { x.navigation with workspace := w } p.rootNodes⟩ ∧
    x.Passes ⟨p, Navigation.setRoots { x.navigation with workspace := w } p.rootNodes⟩
  := by
  have hlater {node : Node} (hnode : node ∈ p.rootNodes) : x.workspace.nextNode ≤ node.number :=
    (hrebuilt.drawn.within node hnode).1
  constructor
  · exact ⟨⟨htracked.provider, htracked.among, htracked.modules, htracked.scripts⟩,
      h.inLine.setRoots hrebuilt.spares hrebuilt.fits _, hrebuilt.shown, hrebuilt.drawn.later (Nat.zero_le _)⟩
  · exact ⟨hrebuilt.spares.nextNode, fun _ hnode => .inr (hlater hnode), .inr fun _ hnode => hlater hnode⟩

/-- The roots of a project that was resolved again are shown, and a walk is followed from them. -/
theorem restore (h : x.InLine A seen) {p : Project δ} {w : Workspace σ}
    (hrebuilt : p.Rebuilt (A.along p.settings.sysPath) seen x.workspace w) (htracked : p.IsTracked A.answers seen w)
    (walk : List Element) :
  (({ x with project := p }.withWorkspace w).restore walk).2.InLine A seen ∧
    x.Passes (({ x with project := p }.withWorkspace w).restore walk).2
  := by
  obtain ⟨hset, hpasses⟩ := h.showRoots hrebuilt htracked
  obtain ⟨hline, hfollowed⟩ := hset.withNavigation (.openBookmark _ walk) (hset.inLine.follow 0 walk)
  exact ⟨hline, hpasses.trans hfollowed⟩

/-- What a project is resolved into again beside the columns. -/
theorem rebuilt (h : x.InLine A seen) (p : Project δ) {w : Workspace σ} (hspares : x.workspace.Spares w)
    (hseen : ∀ path ∈ p.settings.scripts, seen A.files path) :
  (p.rebuild w).1.Rebuilt (A.along p.settings.sysPath) seen x.workspace (p.rebuild w).2 ∧
    (p.rebuild w).1.IsTracked A.answers seen (p.rebuild w).2
  := by
  have hfiles : w.files = A.files := hspares.files.trans h.inLine.fits.files
  have hanswers := hspares.answers A.answers h.tracked.provider
  have hseen' : ∀ path ∈ p.settings.scripts, seen w.files path := fun path hpath => hfiles ▸ hseen path hpath
  have hmode := (congrArg ConfigValues.experimentalMode hspares.config).trans h.inLine.fits.mode
  have hrebuilt := Project.rebuilt_rebuild (A := A.along p.settings.sysPath) hanswers hfiles hmode rfl
    (hspares.rooted h.inLine.rooted) hseen'
  exact ⟨⟨hspares.trans hrebuilt.spares, hrebuilt.fits, hrebuilt.shown, hrebuilt.drawn.later hspares.nextNode⟩,
    .rebuild hanswers hseen'⟩

theorem reload (h : x.InLine A seen) :
  x.reload.2.InLine A seen ∧ x.Passes x.reload.2
  := by
  obtain ⟨hrebuilt, htracked⟩ := h.rebuilt x.project (.cancelSearches h.inLine.sound) h.among
  exact h.restore hrebuilt htracked _

/-! ### Roots that change -/

/-- The roots are brought in line with the modules or the scripts. -/
theorem changeRoots (h : x.InLine A seen) {p : Project δ} {w : Workspace σ} {change : SettingsChange}
    (hchanges : x.project.Changes (A.along x.sysPath) seen p x.workspace w change)
    (htracked : p.IsTracked A.answers seen w) {category : Category}
    (hcategory : category = .modules ∨ category = .scripts) (walk : List Element) :
  (({ x with project := p }.withWorkspace w).showChange category change walk).InLine A seen ∧
    x.Passes (({ x with project := p }.withWorkspace w).showChange category change walk)
  := by
  have hfits := hchanges.fits h.inLine.fits
  have hpath : p.settings.sysPath = x.sysPath := hchanges.sysPath
  have hshown (n : Navigation σ) (hanswers : n.workspace.Answers A.answers) (hfiles : n.workspace.files = w.files)
      (hnext : n.workspace.nextNode = w.nextNode) (hline : n.InLine (A.along x.sysPath)) (hroots : n.frontier.roots =
        (x.roots.filter fun node => !Frontier.isAmong change.stale node) ++ change.additional) :
      InLine A seen ⟨p, n⟩ ∧ x.Passes ⟨p, n⟩ := by
    have hmem {node : Node} (hnode : node ∈ n.frontier.roots) :
        (node ∈ x.roots ∧ Frontier.isAmong change.stale node = false) ∨ node ∈ change.additional := by
      rw [hroots] at hnode
      refine (List.mem_append.mp hnode).imp_left fun hkept => ?_
      obtain ⟨hnode, hkept⟩ := List.mem_filter.mp hkept
      exact ⟨hnode, (Bool.not_eq_true' _).mp hkept⟩
    constructor
    · refine ⟨⟨hanswers, fun path hmem => ?_, htracked.modules, htracked.scripts⟩, ?_, fun node hnode => ?_, ?_⟩
      · change seen n.workspace.files path
        rw [hfiles]
        exact htracked.among path hmem
      · change n.InLine (A.along p.settings.sysPath)
        rw [hpath]
        exact hline
      · change p.settings.Shows (A.along p.settings.sysPath) seen node
        rw [hpath]
        rcases hmem hnode with ⟨hnode, hkept⟩ | hnode
        · exact hchanges.kept node (h.shown node hnode) hkept
        · exact hchanges.additional node hnode
      · change Node.Drawn 0 n.workspace.nextNode n.frontier.roots
        rw [hroots, hnext]
        exact (h.drawn.mono (List.filter_subset_self _) (Nat.le_refl _)).append hchanges.drawn (Nat.zero_le _)
          hchanges.spares.nextNode
    · refine ⟨hnext.symm ▸ hchanges.spares.nextNode, fun node hnode => ?_, .inl hpath⟩
      rcases hmem hnode with ⟨hnode, -⟩ | hnode
      · exact .inl hnode
      · exact .inr (hchanges.drawn.within node hnode).1
  cases hchanged : change.changed with
  | false =>
    obtain ⟨hstale, hadditional⟩ := hchanges.unchanged hchanged
    have hself : ({ x with project := p }.withWorkspace w).showChange category change walk =
        { x with project := p }.withWorkspace w := by
      unfold showChange
      rw [hchanged]
      rfl
    rw [hself]
    apply hshown { x.navigation with workspace := w } htracked.provider rfl rfl
      (h.inLine.elsewhere hchanges.spares hfits)
    rw [hstale, hadditional, List.append_nil]
    exact (List.filter_eq_self.mpr fun _ _ => rfl).symm
  | true =>
    have hchange : ({ x with project := p }.withWorkspace w).showChange category change walk =
        ⟨p, (Navigation.removeRoots { x.navigation with workspace := w } change.stale).addRoots change.additional⟩ := by
      unfold showChange
      rw [hchanged]
      rcases hcategory with rfl | rfl <;> rfl
    rw [hchange]
    apply hshown _ htracked.provider rfl rfl
    · exact (h.inLine.removeRoots h.drawn.numbered hchanges.spares hfits change.stale).addRoots change.additional
    · have hremoved := h.inLine.removeRoots h.drawn.numbered hchanges.spares hfits change.stale
      have hroots := (x.navigation.frontier.roots_removeRoots change.stale w.searches)
      exact (Frontier.roots_addRoots hremoved.slots_ne_nil _).trans (congrArg (· ++ change.additional) hroots)

end InLine

end Explorer

end CallGraph

/-!
## Settings that are replaced beside the columns

Whatever settings are replaced, the columns of an explorer are in line afterwards, and its roots show what it tracks.
Settings that are stored may change the files, but this makes no difference as long as the directories of packages
offer the same modules.
-/

namespace CallGraph

variable {σ δ : Type} {A : Setting} {files : FileTree} {seen : FileTree → Path → Prop}

/-! ### Over other files -/

namespace Setting

/-- What a script calls is the same among whatever files. -/
theorem result_scriptChildren_over (path : Path) (d : Definition) :
  (Search.scriptChildren path d).result (A.over files) = (Search.scriptChildren path d).result A
  := by
  rw [Search.result_scriptChildren, Search.result_scriptChildren]
  exact congrArg Search.found (Finding.sameOver_callSiteVertices d (.root 0))

theorem Meets.over (h : A.files.OffersAs files) {v : Vertex} (hv : (A.over files).Meets v) :
  A.Meets v
  := by
  induction hv with
  | module answer => exact .module answer
  | script answer child => exact .script answer (result_scriptChildren_over _ _ ▸ child)
  | neighbour _ neighbour ih => exact .neighbour ih (neighbours_over h _ ▸ neighbour)

theorem IsCoherent.over (h : A.IsCoherent) (hfiles : A.files.OffersAs files) :
  (A.over files).IsCoherent
  :=
  fun v u hv hu => h v u (hv.over hfiles) (hu.over hfiles)

theorem Line.over (hfiles : A.files.OffersAs files) {columns : List Column} {path : List Node}
    (h : A.Line columns path) :
  (A.over files).Line columns path
  := by
  induction h with
  | last nodes => exact .last nodes
  | cons state selected rows line ih => exact .cons state selected (rows.trans (rows_over hfiles ▸ rfl)) ih

theorem ShowsModule.over {name : String} {node : Node} (h : A.ShowsModule name node) :
  (A.over files).ShowsModule name node
  := by
  obtain ⟨number, answer⟩ := h
  exact ⟨number, answer⟩

theorem ShowsScript.over {t : FileTree} {path : Path} {node : Node} (h : A.ShowsScript t path node) :
  (A.over files).ShowsScript t path node
  := by
  obtain ⟨number, first, answer⟩ := h
  rename_i d
  have hchildren : (Search.scriptChildren path d).result (A.over files) = _ := result_scriptChildren_over path d
  rw [← hchildren]
  exact ⟨number, first, answer⟩

end Setting

theorem Settings.Shows.over {s : Settings} {node : Node} (h : s.Shows A seen node) :
  s.Shows (A.over files) seen node
  := by
  cases h with
  | module tracked shows => exact .module tracked shows.over
  | script tracked hseen shows => exact .script tracked hseen shows.over

namespace Explorer

variable {x y : Explorer σ δ}

/-- An explorer without multithreading, in the mode of a setting and over files that offer the same modules, among which
its scripts are `seen`. -/
structure Suits (A : Setting) (seen : FileTree → Path → Prop) (x : Explorer σ δ) : Prop where
  offers : A.files.OffersAs x.workspace.files
  inline : x.workspace.getConfig.1.multithreading = false
  mode : x.workspace.getConfig.1.experimentalMode = A.experimental
  seen : ∀ path ∈ x.project.settings.scripts, seen x.workspace.files path

/-- Explorers that suit one setting suit it over each other's files. -/
theorem Suits.over (hy : y.Suits A seen) (hx : x.Suits A seen) :
  y.Suits (A.over x.workspace.files) seen
  :=
  ⟨hx.offers.symm.trans hy.offers, hy.inline, hy.mode, hy.seen⟩

namespace InLine

/-- The setting may be taken to be over the explorer's own files. -/
theorem overOwn (h : x.InLine A seen) :
  x.InLine (A.over x.workspace.files) seen
  := by
  have hfiles : x.workspace.files = A.files := h.inLine.fits.files
  rw [hfiles]
  exact h

/-- Settings are stored among files that offer the same modules. -/
theorem keeping (h : x.InLine A seen) (store : δ) (hsuits : (x.keeping store files).Suits A seen) :
  (x.keeping store files).InLine (A.over files) seen ∧ x.Passes (x.keeping store files)
  := by
  have hanswers : Workspace.Answers { x.workspace with files } A.answers := h.tracked.provider
  have hfits : Workspace.Fits { x.workspace with files } ((A.over files).along x.sysPath) := by
    obtain ⟨states, hsteady, hstates⟩ := hanswers
    exact ⟨⟨states, hsteady files, hstates⟩, rfl, h.inLine.fits.searchPath, hsuits.mode⟩
  refine ⟨⟨⟨hanswers, hsuits.seen, h.tracked.modules, h.tracked.scripts⟩, ?_,
    fun node hnode => (h.shown node hnode).over, h.drawn⟩, Nat.le_refl _, fun _ => .inl, .inl rfl⟩
  obtain ⟨columns, path, hrests, hline⟩ := h.inLine
  exact ⟨columns, path, hrests.beside rfl hsuits.inline (.refl _) hrests.rooted hfits,
    Setting.Line.over (A := A.along x.sysPath) hsuits.offers hline⟩

/-- The log is another one. -/
theorem logged (h : x.InLine A seen) (log : List LogLine) :
  (x.withWorkspace { x.workspace with log }).InLine A seen ∧ x.Passes (x.withWorkspace { x.workspace with log })
  := by
  have hfits := h.inLine.fits
  have hline := h.inLine.elsewhere (.aside x.workspace x.workspace.scope x.workspace.searchPath log)
    ⟨hfits.steady, hfits.files, hfits.searchPath, hfits.mode⟩
  exact h.withNavigation (.ofWorkspace rfl rfl rfl rfl rfl) hline

variable [SettingsStore δ]

/-- The search path is replaced. -/
theorem replaced_sysPath (h : x.InLine A seen) (new : List Path) :
  (x.replaced (.sysPath new)).InLine A seen ∧ x.Passes (x.replaced (.sysPath new))
  := by
  by_cases hnew : (new == x.project.settings.sysPath) = true
  · have hsame : x.replaced (.sysPath new) = x := by
      rw [Explorer.replaced, Project.replace, Project.setSearchPath, if_pos hnew]
      rfl
    rw [hsame]
    exact ⟨h, .refl x⟩
  · let p : Project δ := { x.project with settings := { x.project.settings with sysPath := new } }
    let restored := (({ x with project := (p.rebuild x.workspace).1 }.withWorkspace (p.rebuild x.workspace).2).restore
      x.navigation.frontier.elementPath)
    have hchanged : x.replaced (.sysPath new) = if restored.1.isExact then restored.2
        else restored.2.note (.info "Search path changed; navigation path partly restored") := by
      rw [Explorer.replaced, Project.replace, Project.setSearchPath, if_neg hnew]
      rfl
    obtain ⟨hrebuilt, htracked⟩ := h.rebuilt p (.refl _) h.among
    obtain ⟨hline, hpasses⟩ := h.restore hrebuilt htracked x.navigation.frontier.elementPath
    rw [hchanged]
    split
    · exact ⟨hline, hpasses⟩
    · obtain ⟨hnoted, hpassed⟩ := hline.logged _
      exact ⟨hnoted, hpasses.trans hpassed⟩

variable (hA : Discreet A.answers)
  (hplaces : ∀ files files' p q, seen files p → seen files' q → (p == q) = true →
    (files.place p == files'.place q) = true)

include hA hplaces

/-- Settings are replaced. -/
theorem replaced (h : x.InLine A seen) {new : Replacement}
    (hseen : ∀ path ∈ (x.replaced new).project.settings.scripts, seen x.workspace.files path) :
  (x.replaced new).InLine A seen ∧ x.Passes (x.replaced new)
  := by
  have hself (project : Project δ) (change : SettingsChange) (category : Category)
      (hcategory : category ≠ .sysPath ∧ category ≠ .modules ∧ category ≠ .scripts) :
      ({ x with project }.withWorkspace x.workspace).showChange category change x.navigation.frontier.elementPath =
        { x with project } := showChange_eq_self _ _ fun _ => hcategory
  cases new with
  | directory new =>
    rw [Explorer.replaced]
    dsimp only [Project.replace, Replacement.category]
    rw [hself _ _ _ (by decide)]
    apply h.withSettings <;> (unfold Project.setDirectory; split <;> rfl)
  | bookmarks new =>
    rw [Explorer.replaced]
    dsimp only [Project.replace, Replacement.category]
    rw [hself _ _ _ (by decide)]
    exact h.withSettings rfl rfl rfl rfl rfl
  | files new =>
    rw [Explorer.replaced]
    dsimp only [Project.replace, Replacement.category]
    rw [hself _ _ _ (by decide)]
    exact h.withSettings rfl rfl rfl rfl rfl
  | sysPath new => exact h.replaced_sysPath new
  | modules new =>
    have hchanges := Project.changes_setModules (A := A.along x.sysPath) h.tracked rfl h.inLine.rooted new
    exact h.changeRoots hchanges (h.tracked.setModules new) (.inl rfl) x.navigation.frontier.elementPath
  | scripts new =>
    have hnew : ∀ path ∈ new, seen x.workspace.files path := by
      rw [Explorer.replaced, project_showChange] at hseen
      exact hseen
    have hchanges :=
      Project.changes_setScripts (A := A.along x.sysPath) hA hplaces h.tracked rfl h.inLine.rooted hnew
    exact h.changeRoots hchanges (h.tracked.setScripts hnew) (.inr rfl) x.navigation.frontier.elementPath

/-- An operation is prepared. -/
theorem prepare (h : x.InLine A seen) {op : Operation} (hprepare : x.prepare op = some y)
    (hseen : ∀ path ∈ y.project.settings.scripts, seen x.workspace.files path) :
  y.InLine A seen ∧ x.Passes y
  := by
  cases op with
  | apply category value =>
    obtain ⟨new, -, rfl⟩ := Option.map_eq_some_iff.mp hprepare
    exact h.replaced hA hplaces hseen
  | addBookmark =>
    obtain ⟨-, hy⟩ := Option.ite_none_left_eq_some.mp hprepare
    cases hy
    exact h.withSettings rfl rfl rfl rfl rfl
  | deleteBookmark index =>
    obtain ⟨-, hy⟩ := Option.ite_none_right_eq_some.mp hprepare
    cases hy
    exact h.withSettings rfl rfl rfl rfl rfl

/-- An operation is carried out. -/
theorem operate (h : x.InLine A seen) (op : Operation)
    (hbefore : ∀ path ∈ (x.operate op).2.project.settings.scripts, seen x.workspace.files path)
    (hafter : (x.operate op).2.Suits A seen) :
  (x.operate op).2.InLine (A.over (x.operate op).2.workspace.files) seen ∧ x.Passes (x.operate op).2
  := by
  cases hprepare : x.prepare op with
  | none =>
    obtain ⟨⟨log, hlog⟩, -⟩ := operate_of_prepare_eq_none hprepare
    rw [hlog]
    obtain ⟨hline, hpasses⟩ := h.logged log
    exact ⟨hline.overOwn, hpasses⟩
  | some y =>
    rw [operate_of_prepare hprepare] at hbefore hafter ⊢
    obtain ⟨result, store, files, hpersist⟩ := y.exists_persist
    rw [hpersist] at hbefore hafter ⊢
    obtain ⟨hprepared, hpasses⟩ := h.prepare hA hplaces hprepare hbefore
    obtain ⟨hkept, hpassed⟩ := hprepared.keeping store hafter
    exact ⟨hkept, hpasses.trans hpassed⟩

end InLine

end Explorer

end CallGraph
