import CallGraph.Proofs.Explorer.Replaying
import CallGraph.Proofs.Settings.Agreement

/-!
# Journeys of explorers

A user replaces settings, selects rows, adds, deletes and follows bookmarks, and has everything resolved again.  On
such a journey the path can at any time be followed exactly after everything was resolved again, and so can any path
that was shown before, as long as the roots from which it was gone are still there.  The provider answers as a fixed
function, and to equal questions alike; the elements of vertices tell their definitions; the files offer the same
modules throughout; and scripts that are equal as paths are at equal places.
-/

namespace CallGraph

variable {σ δ : Type} {A : Setting} {seen : FileTree → Path → Prop}

namespace Explorer

variable {s x y : Explorer σ δ}

/-- A walk was followed exactly, with a step for each of its elements, which the path shows now. -/
structure Replays (r : ReplayOutcome × Explorer σ δ) (walk : List Element) : Prop where
  isExact : r.1.isExact = true
  steps : r.1.steps.length = walk.length
  path : List.Forall₂ Equal r.2.elementPath walk

/-- The roots are still there: themselves, or, on the same search path, others that show the same. -/
def KeepsRoots (x y : Explorer σ δ) : Prop :=
  ∀ node ∈ x.roots, node ∈ y.roots ∨ y.sysPath = x.sysPath ∧ ∃ node' ∈ y.roots, Equal node'.element node.element

/-! ### What can be followed -/

namespace InLine

/-- The path can be followed from nodes that are shown, if roots that show the same are among them. -/
theorem follows (h : x.InLine A seen) {B : Setting} (hdiscreet : Discreet B.answers) (hcoherent : B.IsCoherent)
    {nodes : List Node} (hnodes : ∀ node ∈ nodes, B.ShowsRoot seen node)
    (hroots : ∀ root ∈ x.roots, B.rows = (A.along x.sysPath).rows ∧ B.ShowsRoot seen root ∧
      ∃ node ∈ nodes, Equal node.element root.element) :
  B.Follows nodes x.elementPath
  := by
  obtain ⟨columns, path, hrests, hline⟩ := h.inLine
  have hpath : x.elementPath = path.map Node.element := hrests.elementPath hline
  obtain ⟨root, rest, rfl, hcolumn⟩ := hrests.roots
  rw [hpath]
  cases path with
  | nil => trivial
  | cons first later =>
    have hfirst : first ∈ x.navigation.frontier.roots := hcolumn ▸ hline.mem_of_head? rfl
    obtain ⟨hrows, hshows, hfound⟩ := hroots first hfirst
    apply hcoherent.follows hdiscreet hnodes (hrows ▸ hline.isChain)
    rintro _ ⟨⟩
    exact ⟨hshows, hfound⟩

/-- What can be followed is, and then shown. -/
theorem replays_of_follows (h : x.InLine A seen) {walk : List Element}
    (hfollows : (A.along x.sysPath).Follows x.roots walk) (hend : x.elementPath = [] ∨ walk ≠ []) :
  Replays ((x.navigation.openBookmark walk).1, { x with navigation := (x.navigation.openBookmark walk).2 }) walk
  := by
  obtain ⟨columns, path, hrests, hline⟩ := h.inLine
  obtain ⟨root, rest, rfl, hroots⟩ := hrests.roots
  have hend : path.length = 0 ∨ walk ≠ [] := by
    refine hend.imp_left fun hempty => ?_
    have hpath : x.elementPath = path.map Node.element := hrests.elementPath hline
    rw [← List.length_map Node.element, ← hpath, hempty]
    rfl
  have hfollows : (A.along x.sysPath).Follows root.nodes walk := hroots ▸ hfollows
  have hcolumn : (root :: rest)[0]? = some root := rfl
  obtain ⟨hexact, hsteps, hshown⟩ := hrests.follow hline hcolumn hfollows hend .nil
  exact ⟨hexact, hsteps, hshown⟩

variable (hA : Discreet A.answers)

include hA

/-- A path can be followed from other roots if those from which it was gone are still there. -/
theorem follows_later (hx : x.InLine A seen) {files : FileTree} (hfiles : A.files.OffersAs files)
    (hy : y.InLine (A.over files) seen) (hpasses : x.Passes y) (hkeeps : x.KeepsRoots y)
    (hcoherent : (A.along y.sysPath).IsCoherent) :
  ((A.over files).along y.sysPath).Follows y.roots x.elementPath
  := by
  apply hx.follows (B := (A.along y.sysPath).over files) hA (hcoherent.over hfiles)
  · exact fun node hnode => (hy.shown node hnode).showsRoot
  · intro root hroot
    have hsame : y.sysPath = x.sysPath ∧ ∃ node ∈ y.roots, Equal node.element root.element := by
      rcases hkeeps root hroot with hstays | hfound
      · refine ⟨hpasses.sysPath.resolve_right fun hlater => ?_, root, hstays, BEq.rfl⟩
        exact Nat.not_lt.mpr (hlater root hstays) (hx.drawn.within root hroot).2
      · exact hfound
    obtain ⟨hpath, hfound⟩ := hsame
    rw [hpath]
    exact ⟨Setting.rows_over (A := A.along x.sysPath) hfiles, (hx.shown root hroot).over.showsRoot, hfound⟩

variable (hplaces : ∀ files files' p q, seen files p → seen files' q → (p == q) = true →
  (files.place p == files'.place q) = true)

include hplaces

/-- Once everything is resolved again the path is followed exactly. -/
theorem replays_reload (h : x.InLine A seen) (hcoherent : (A.along x.sysPath).IsCoherent) :
  Replays x.reload x.elementPath
  := by
  obtain ⟨hrebuilt, htracked⟩ := h.rebuilt x.project (.cancelSearches h.inLine.sound) h.among
  obtain ⟨hset, -⟩ := h.showRoots hrebuilt htracked
  refine hset.replays_of_follows ?_ (.inl rfl)
  apply h.follows (B := A.along x.sysPath) hA hcoherent
  · exact fun node hnode => (hset.shown node hnode).showsRoot
  · intro root hroot
    have hshows := h.shown root hroot
    exact ⟨rfl, hshows.showsRoot, htracked.exists_root (A := A.along x.sysPath) hA hplaces rfl hshows⟩

end InLine

/-! ### Explorers of projects -/

/-- The explorer of a project that shows what it tracks, over a workspace that nothing was searched in but beside the
columns. -/
theorem inLine_ofProject {p : Project δ} {u w : Workspace σ} (hidle : u.searches = {})
    (hsearches : u.searches.Spares w.searches) (hrooted : w.searches.Rooted)
    (htracked : p.IsTracked A.answers seen w) (hfits : w.Fits (A.along p.settings.sysPath))
    (hinline : w.getConfig.1.multithreading = false)
    (hshown : ∀ node ∈ p.rootNodes, p.settings.Shows (A.along p.settings.sysPath) seen node)
    (hdrawn : Node.Drawn 0 w.nextNode p.rootNodes) :
  (ofProject p w).InLine A seen
  := by
  have hinline₁ : w.getConfig.2.getConfig.1.multithreading = false :=
    (congrArg ConfigValues.multithreading w.getConfig_getConfig).trans hinline
  have hempty := Navigation.Rests.empty (w := { w.getConfig.2 with searches := u.searches }) hidle
    (hfits.getConfig.withSearches _) hinline₁ w.getConfig.1.textCacheSize.toNat
  have hrests := hempty.beside (w := w.getConfig.2) rfl hinline₁ hsearches hrooted hfits.getConfig
  exact ⟨⟨htracked.provider, htracked.among, htracked.modules, htracked.scripts⟩,
    ⟨_, [], hrests.obey (.setRoots p.rootNodes), .last _⟩, hshown, hdrawn⟩

theorem getConfig_ofProject (p : Project δ) (w : Workspace σ) :
  (ofProject p w).workspace.getConfig.1 = w.getConfig.1
  :=
  w.getConfig_getConfig

/-! ### Moves -/

variable [SettingsStore δ]

/-- What the user of an explorer does. -/
inductive Move where
  | operate (op : Operation)
  | select (strict : Bool) (column row : Nat)
  | openBookmark (index : Nat)
  | reload

/-- The explorer after a move. -/
def move (x : Explorer σ δ) : Move → Explorer σ δ
  | .operate op => (x.operate op).2
  | .select strict column row => { x with navigation := (x.navigation.selectWith strict column row).2 }
  | .openBookmark index => (x.openBookmark index).2
  | .reload => x.reload.2

/-- Moves that lead from an explorer to another one, which suits a setting as long as they are made.  Scripts are
`seen` among the files before a move by which they are tracked, too. -/
inductive Journey (A : Setting) (seen : FileTree → Path → Prop) (x : Explorer σ δ) : Explorer σ δ → Prop where
  | stay : Journey A seen x x
  | move {y : Explorer σ δ} (journey : Journey A seen x y) (m : Move)
      (before : ∀ path ∈ (y.move m).project.settings.scripts, seen y.workspace.files path)
      (suits : (y.move m).Suits A seen) : Journey A seen x (y.move m)

/-- The explorers of projects that are new or were just opened. -/
inductive Starts (A : Setting) (seen : FileTree → Path → Prop) : Explorer σ δ → Prop where
  | new (store : δ) {w : Workspace σ} (answers : w.Answers A.answers) (searches : w.searches = {})
      (searchPath : w.searchPath = []) (suits : (ofProject { store } w).Suits A seen) :
      Starts A seen (ofProject { store } w)
  | opened {store : δ} {directory : Option Path} {user : UserScope} {runtime : List Path} {p : Project δ}
      {w w' : Workspace σ} (answers : w.Answers A.answers) (searches : w.searches = {})
      (mode : w.getConfig.1.experimentalMode = A.experimental)
      (opened : Project.openStored store directory user runtime w = (.ok p, w'))
      (before : ∀ path ∈ p.settings.scripts, seen w.files path) (suits : (ofProject p w').Suits A seen) :
      Starts A seen (ofProject p w')

/-! ### Where journeys start -/

theorem Starts.inLine (h : x.Starts A seen) :
  x.InLine (A.over x.workspace.files) seen
  := by
  have hconfig (p : Project δ) (w : Workspace σ) (hsuits : (ofProject p w).Suits A seen) :
      w.getConfig.1.multithreading = false ∧ w.getConfig.1.experimentalMode = A.experimental := by
    rw [← getConfig_ofProject p w]
    exact ⟨hsuits.inline, hsuits.mode⟩
  have hidle {w : Workspace σ} (hsearches : w.searches = {}) : w.searches.Rooted := by
    rw [hsearches]
    exact .empty
  cases h with
  | @new store w answers searches searchPath suits =>
    obtain ⟨hinline, hmode⟩ := hconfig _ _ suits
    have htracked : Project.IsTracked A.answers seen { store } w := ⟨answers, nofun, .empty _, .empty _⟩
    obtain ⟨states, hsteady, hstates⟩ := answers
    have hfits : w.Fits ((A.over w.files).along []) := ⟨⟨states, hsteady w.files, hstates⟩, rfl, searchPath, hmode⟩
    exact inLine_ofProject (A := A.over w.files) searches (.refl _) (hidle searches) htracked hfits hinline
      (List.forall_mem_nil _) (.nil _ _)
  | @opened store directory user runtime p w w' answers searches mode opened before suits =>
    obtain ⟨hinline, hmode⟩ := hconfig _ _ suits
    have htracked := Project.IsTracked.openStored answers opened before suits.seen
    obtain ⟨-, -, loaded, log, -, -, -, hpersist⟩ := Project.exists_of_openStored opened
    have hrebuilt (hseen : ∀ path ∈ loaded.settings.scripts, seen w.files path) :=
      Project.rebuilt_rebuild (w := { w with searchPath := loaded.settings.sysPath, log })
        (A := (A.over w.files).along loaded.settings.sysPath) answers rfl mode rfl (hidle searches) hseen
    obtain ⟨result, store', files, hstored⟩ :=
      Project.exists_persistCategories (loaded.rebuild _).1 (loaded.rebuild _).2 Category.all
    rw [Project.persist, hstored] at hpersist
    cases hpersist
    have hrebuilt := hrebuilt before
    obtain ⟨states, hsteady, hstates⟩ := htracked.provider
    exact inLine_ofProject (A := A.over files) (u := { w with searchPath := loaded.settings.sysPath, log }) searches
      hrebuilt.spares.searches (hrebuilt.spares.rooted (hidle searches)) htracked
      ⟨⟨states, hsteady _, hstates⟩, rfl, hrebuilt.fits.searchPath, hmode⟩ hinline
      (fun node hnode => (hrebuilt.shown node hnode).over) (hrebuilt.drawn.later (Nat.zero_le _))

/-! ### Where journeys lead -/

section

variable (hA : Discreet A.answers)
  (hplaces : ∀ files files' p q, seen files p → seen files' q → (p == q) = true →
    (files.place p == files'.place q) = true)

include hA hplaces

/-- A move keeps the columns in line. -/
theorem InLine.move (h : x.InLine (A.over x.workspace.files) seen) (hx : x.Suits A seen) (m : Move)
    (hbefore : ∀ path ∈ (x.move m).project.settings.scripts, seen x.workspace.files path)
    (hafter : (x.move m).Suits A seen) :
  (x.move m).InLine (A.over (x.move m).workspace.files) seen ∧ x.Passes (x.move m)
  := by
  have hown {z : Explorer σ δ} (hz : z.InLine (A.over x.workspace.files) seen ∧ x.Passes z) :
      z.InLine (A.over z.workspace.files) seen ∧ x.Passes z := hz.imp_left fun hline => hline.overOwn
  cases m with
  | operate op => exact operate (A := A.over x.workspace.files) hA hplaces h op hbefore (hafter.over hx)
  | select strict column row => exact hown (h.select strict column row)
  | openBookmark index => exact hown (h.openBookmark index)
  | reload => exact hown h.reload

/-- On a journey the columns stay in line. -/
theorem Journey.inLine (h : x.Journey A seen y) (hline : x.InLine (A.over x.workspace.files) seen)
    (hsuits : x.Suits A seen) :
  y.InLine (A.over y.workspace.files) seen ∧ y.Suits A seen ∧ x.Passes y
  := by
  induction h with
  | stay => exact ⟨hline, hsuits, .refl x⟩
  | move journey m before suits ih =>
    obtain ⟨hline, hsuits, hpasses⟩ := ih
    obtain ⟨hmoved, hpassed⟩ := hline.move hA hplaces hsuits m before suits
    exact ⟨hmoved, suits, hpasses.trans hpassed⟩

end

theorem Starts.suits (h : x.Starts A seen) :
  x.Suits A seen
  := by
  cases h with
  | new _ _ _ _ suits => exact suits
  | opened _ _ _ _ _ suits => exact suits

/-- Let the provider answer as a fixed function, and to equal questions alike, and let elements tell the definitions of
the vertices that are met.  Then wherever a journey leads, the path is followed exactly when everything is resolved
again, and so is a bookmark of the path that was shown on the way as long as the roots are still there. -/
theorem Journey.replays (hA : Discreet A.answers)
    (hplaces : ∀ files files' p q, seen files p → seen files' q → (p == q) = true →
      (files.place p == files'.place q) = true)
    (hstarts : s.Starts A seen) (hx : s.Journey A seen x) (hy : x.Journey A seen y)
    (hcoherent : (A.along y.sysPath).IsCoherent) :
  Replays y.reload y.elementPath ∧
    (x.elementPath ≠ [] → x.KeepsRoots y → ∀ index, y.bookmarks[index]? = some x.elementPath →
      ∃ r, y.openBookmark index = (some r.1, r.2) ∧ Replays r x.elementPath)
  := by
  obtain ⟨hxline, hxsuits, -⟩ := hx.inLine hA hplaces hstarts.inLine hstarts.suits
  obtain ⟨hyline, hysuits, hpasses⟩ := hy.inLine hA hplaces hxline hxsuits
  constructor
  · exact InLine.replays_reload (A := A.over y.workspace.files) hA hplaces hyline
      (Setting.IsCoherent.over (A := A.along y.sysPath) hcoherent hysuits.offers)
  · intro hpath hkeeps index hbookmark
    have hfollows := InLine.follows_later (A := A.over x.workspace.files) hA hxline
      (hxsuits.offers.symm.trans hysuits.offers) hyline hpasses hkeeps
      (Setting.IsCoherent.over (A := A.along y.sysPath) hcoherent hxsuits.offers)
    refine ⟨_, ?_, hyline.replays_of_follows hfollows (.inr hpath)⟩
    rw [openBookmark, hbookmark]

/-! ### A module and a script that call a function -/

/-- A call of a function in a module. -/
def calledSite : CallSite :=
  ⟨"f", none, .child, some ⟨"/tmp/w/m.py"⟩, .known 2 0, .known 2 1⟩

/-- The function that is called. -/
def calledFunction : Definition :=
  ⟨"f", "function", "m", none, .known 1 0, .unknown⟩

/-- The module of the function. -/
def callingModule : Definition :=
  ⟨"m", Kind.moduleKind, "m", none, .known 1 0, .unknown⟩

/-- A script that calls the function. -/
def callingScript : Definition :=
  ⟨"link", Kind.moduleKind, "link", none, .known 1 0, .unknown⟩

/-- A workspace with a module and a script behind a link, both of which call a function. -/
def calling : Workspace Scripted :=
  { Project.linked with
    analysis :=
      { modules := [("m", callingModule)]
        scripts := [(⟨"/tmp/w/link.py"⟩, callingScript)]
        callSites := [("m", calledSite), ("link", calledSite)]
        targets := [("f", [calledFunction])] }
    config := { overrides := { multithreading := some false } } }

/-- The setting of the workspace. -/
def callingSetting : Setting where
  answers := calling.analysis.tabled
  experimental := false
  files := calling.files
  searchPath := []
  answers_usages _ _ _ := rfl

/-- The vertex of the module. -/
def callingVertex : Vertex :=
  .ofModule callingModule

/-- The vertex of the function. -/
def calledVertex : Vertex :=
  targetVertex calledSite 0 calledFunction

theorem neighbours_callingVertex :
  callingSetting.neighbours callingVertex = [calledVertex]
  := by
  rw [Setting.neighbours_eq]
  rfl

theorem neighbours_calledVertex :
  callingSetting.neighbours calledVertex = []
  := by
  rw [Setting.neighbours_eq]
  rfl

/-- No other vertices are met than those of the module and the function. -/
theorem meets_calling {v : Vertex} (h : callingSetting.Meets v) :
  v = callingVertex ∨ v = calledVertex
  := by
  induction h with
  | @module name d answer =>
    have hmem : d ∈ [callingModule] := Scripted.mem_of_last? (Except.ok.inj answer)
    rw [List.mem_singleton.mp hmem]
    exact .inl rfl
  | @script path d v answer child =>
    have hmem : d ∈ [callingScript] := by
      have hanswer : calling.analysis.tabled (.script path []) = .ok d := answer
      rw [Scripted.tabled] at hanswer
      split at hanswer
      · cases hanswer
        exact Scripted.mem_of_last? ‹_›
      · cases hanswer
    rw [List.mem_singleton.mp hmem] at child
    have hchildren : (Search.scriptChildren path callingScript).result callingSetting = [calledVertex] := rfl
    rw [hchildren] at child
    exact .inr (List.mem_singleton.mp child)
  | @neighbour v u meets neighbour ih =>
    rcases ih with rfl | rfl
    · rw [neighbours_callingVertex] at neighbour
      exact .inr (List.mem_singleton.mp neighbour)
    · rw [neighbours_calledVertex] at neighbour
      cases neighbour

theorem isCoherent_callingSetting :
  callingSetting.IsCoherent
  := by
  have hapart : ¬ Equal callingVertex.element calledVertex.element := by decide
  intro v u hv hu hequal
  rcases meets_calling hv with rfl | rfl
  · rcases meets_calling hu with rfl | rfl
    · exact .some BEq.rfl
    · exact absurd hequal hapart
  · rcases meets_calling hu with rfl | rfl
    · exact absurd (BEq.symm hequal) hapart
    · exact .some BEq.rfl

theorem answers_calling :
  calling.Answers callingSetting.answers
  :=
  ⟨_, Scripted.provider_isSteady calling.analysis, rfl, fun _ => rfl⟩

/-- The explorer of a new project over the workspace. -/
def unscoped : Explorer Scripted MemoryStore :=
  ofProject { store := ({} : MemoryStore) } calling

/-- The script is tracked besides the module, and its call of the function is shown. -/
def walked : Explorer Scripted MemoryStore :=
  (((unscoped.move (.operate (.apply .modules (.array [.text "m"])))).move
    (.operate (.apply .scripts (.array [.text "/tmp/w/link.py"])))).move (.select false 0 1)).move (.select false 1 0)

/-- The path is made a bookmark, then the module is shown. -/
def turned : Explorer Scripted MemoryStore :=
  (walked.move (.operate .addBookmark)).move (.select false 0 0)

/-- The path to the module is followed once everything is resolved again, and the bookmark leads to the function. -/
theorem Journey.replays_turned :
  Replays turned.reload turned.elementPath ∧
    (∃ r, turned.openBookmark 0 = (some r.1, r.2) ∧ Replays r walked.elementPath) ∧
    turned.elementPath.map Element.name = ["m"] ∧ walked.elementPath.map Element.name = ["link", "f"]
  := by
  let seen (t : FileTree) (path : Path) : Prop := t = calling.files ∧ path = ⟨"/tmp/w/link.py"⟩
  have hplaces : ∀ files files' p q, seen files p → seen files' q → (p == q) = true →
      (files.place p == files'.place q) = true := by
    rintro _ _ _ _ ⟨rfl, rfl⟩ ⟨rfl, rfl⟩ _
    exact BEq.rfl
  have hsuits (x : Explorer Scripted MemoryStore) (hfiles : x.workspace.files = calling.files)
      (hinline : x.workspace.getConfig.1.multithreading = false)
      (hmode : x.workspace.getConfig.1.experimentalMode = false)
      (hscripts : x.project.settings.scripts ⊆ [⟨"/tmp/w/link.py"⟩]) : x.Suits callingSetting seen :=
    ⟨fun _ _ => hfiles ▸ rfl, hinline, hmode, fun path hpath => ⟨hfiles, List.mem_singleton.mp (hscripts hpath)⟩⟩
  have hstarts : unscoped.Starts callingSetting seen :=
    .new ({} : MemoryStore) answers_calling rfl rfl (hsuits _ rfl rfl rfl (List.nil_subset _))
  have hmove {x y : Explorer Scripted MemoryStore} (h : x.Journey callingSetting seen y) (m : Move)
      (hbefore : y.workspace.files = calling.files) (hfiles : (y.move m).workspace.files = calling.files)
      (hinline : (y.move m).workspace.getConfig.1.multithreading = false)
      (hmode : (y.move m).workspace.getConfig.1.experimentalMode = false)
      (hscripts : (y.move m).project.settings.scripts ⊆ [⟨"/tmp/w/link.py"⟩]) :
      x.Journey callingSetting seen (y.move m) :=
    h.move m (fun path hpath => ⟨hbefore, List.mem_singleton.mp (hscripts hpath)⟩)
      (hsuits _ hfiles hinline hmode hscripts)
  have hmodule := hmove (x := unscoped) .stay (.operate (.apply .modules (.array [.text "m"]))) rfl rfl rfl rfl
    (List.nil_subset _)
  have hscript := hmove hmodule (.operate (.apply .scripts (.array [.text "/tmp/w/link.py"]))) rfl rfl rfl rfl
    (List.Subset.refl _)
  have hselected := hmove hscript (.select false 0 1) rfl rfl rfl rfl (List.Subset.refl _)
  have hwalked : unscoped.Journey callingSetting seen walked :=
    hmove hselected (.select false 1 0) rfl rfl rfl rfl (List.Subset.refl _)
  have hadded := hmove (x := walked) .stay (.operate .addBookmark) rfl rfl rfl rfl (List.Subset.refl _)
  have hturned : walked.Journey callingSetting seen turned :=
    hmove hadded (.select false 0 0) rfl rfl rfl rfl (List.Subset.refl _)
  obtain ⟨hreload, hbookmark⟩ := Journey.replays (Scripted.discreet_tabled calling.analysis) hplaces hstarts hwalked
    hturned isCoherent_callingSetting
  have hpath : walked.elementPath ≠ [] := fun hempty => absurd (congrArg List.length hempty) (by decide)
  exact ⟨hreload, hbookmark hpath (fun node hnode => .inl hnode) 0 rfl, by decide, by decide⟩

/-- The script is spelled with a slash behind it once its call is shown. -/
def respelt : Explorer Scripted MemoryStore :=
  ((unscoped.move (.operate (.apply .scripts (.array [.text "/tmp/w/link.py"])))).move (.select false 0 0)).move
    (.operate (.apply .scripts (.array [.text "/tmp/w/link.py/"])))

/-- A script that is re-spelled keeps the element with the place that the link leads to, but has one with the path of
the link itself once everything is resolved again, as a slash behind it demands a directory.  So the path is not
followed exactly. -/
theorem Journey.not_replays_respelled :
  unscoped.Starts callingSetting (fun _ _ => True) ∧ unscoped.Journey callingSetting (fun _ _ => True) respelt ∧
    Discreet callingSetting.answers ∧ (callingSetting.along respelt.sysPath).IsCoherent ∧
    respelt.elementPath.length = 1 ∧ respelt.reload.1.isExact = false
  := by
  have hsuits (x : Explorer Scripted MemoryStore) (hfiles : x.workspace.files = calling.files)
      (hinline : x.workspace.getConfig.1.multithreading = false)
      (hmode : x.workspace.getConfig.1.experimentalMode = false) : x.Suits callingSetting fun _ _ => True :=
    ⟨fun _ _ => hfiles ▸ rfl, hinline, hmode, fun _ _ => trivial⟩
  refine ⟨.new ({} : MemoryStore) answers_calling rfl rfl (hsuits _ rfl rfl rfl), ?_,
    Scripted.discreet_tabled calling.analysis, isCoherent_callingSetting, by decide, by decide⟩
  have hstay : unscoped.Journey callingSetting (fun _ _ => True) unscoped := .stay
  have htracked := hstay.move (.operate (.apply .scripts (.array [.text "/tmp/w/link.py"]))) (fun _ _ => trivial)
    (hsuits _ rfl rfl rfl)
  have hselected := htracked.move (.select false 0 0) (fun _ _ => trivial) (hsuits _ rfl rfl rfl)
  exact hselected.move (.operate (.apply .scripts (.array [.text "/tmp/w/link.py/"]))) (fun _ _ => trivial)
    (hsuits _ rfl rfl rfl)

end Explorer

end CallGraph
