import CallGraph.Proofs.Path
import CallGraph.Proofs.Settings.Replacement
import CallGraph.Proofs.Settings.Roots

/-!
# Outcomes of modules and scripts

A module name has a single outcome.  A script has those of all paths that are equal to it, as it is tracked
as a path; their elements are equal but for the path of their own definition, which is where the file of the
script is, and equal throughout if the files of equal paths are at equal places.
-/

namespace CallGraph

variable {σ : Type} {answers : (q : Question) → Except ProviderError q.Answer} {searchPath : List Path}
  {seen : FileTree → Path → Prop}

/-- The element without the path of its own definition. -/
def Element.unplaced (e : Element) : Element :=
  { e with path := none }

/-- Errors that are equal, paths as paths. -/
def ResolutionError.Alike : ResolutionError → ResolutionError → Prop
  | .unreadableScript path reason, .unreadableScript path' reason' =>
    (path == path') = true ∧ reason = reason'
  | e, e' => e = e'

/-- Where the file of a script is. -/
def FileTree.place (files : FileTree) (path : Path) : Path :=
  match files.canonical path with
  | .ok canonical => canonical
  | .error _ => path

/-- A module name has a single outcome. -/
def moduleOutcomes (answers : (q : Question) → Except ProviderError q.Answer) (searchPath : List Path) :
    Outcomes String where
  may name outcome := outcome = moduleOutcome answers searchPath name
  congr hname houtcome := by rw [← eq_of_beq hname, houtcome]

/-- A script may have the outcome of an equal path, over any files among which this was seen. -/
def scriptOutcomes (answers : (q : Question) → Except ProviderError q.Answer) (searchPath : List Path)
    (seen : FileTree → Path → Prop) : Outcomes Path where
  may path outcome := ∃ files other, seen files other ∧ (other == path) = true ∧
    outcome = scriptOutcome answers searchPath files other
  congr hpath houtcome := by
    obtain ⟨files, other, hseen, hother, houtcome⟩ := houtcome
    exact ⟨files, other, hseen, BEq.trans hother hpath, houtcome⟩

/-- Two outcomes of a module name are equal. -/
theorem related_of_moduleOutcomes {name : String} {o o' : Except ResolutionError Element}
    (h : (moduleOutcomes answers searchPath).may name o)
    (h' : (moduleOutcomes answers searchPath).may name o') :
  Outcomes.Related Eq Eq o o'
  := by
  rw [show o = o' from h.trans h'.symm]
  cases o' with
  | ok e => exact .ok rfl
  | error e => exact .error rfl

/-- The outcomes of equal paths are related as their elements are, if the answers are the same. -/
theorem related_of_scriptOutcomes {E : Element → Element → Prop}
    (hanswers : ∀ files files' p q, seen files p → seen files' q → (p == q) = true →
      scriptAnswer answers searchPath p = scriptAnswer answers searchPath q)
    (helements : ∀ files files' p q d, seen files p → seen files' q → (p == q) = true →
      E (Search.scriptElement files p d) (Search.scriptElement files' q d))
    {path : Path} {o o' : Except ResolutionError Element}
    (h : (scriptOutcomes answers searchPath seen).may path o)
    (h' : (scriptOutcomes answers searchPath seen).may path o') :
  Outcomes.Related E ResolutionError.Alike o o'
  := by
  obtain ⟨files, p, hp, hpath, rfl⟩ := h
  obtain ⟨files', q, hq, hpath', rfl⟩ := h'
  have hequal : (p == q) = true := BEq.trans hpath (BEq.symm hpath')
  rw [scriptOutcome, scriptOutcome, hanswers files files' p q hp hq hequal]
  cases scriptAnswer answers searchPath q with
  | error reason => exact .error ⟨hequal, rfl⟩
  | ok d => exact .ok (helements files files' p q d hp hq hequal)

/-- The elements of equal paths are equal but for the path of their own definition. -/
theorem unplaced_scriptElement (files files' : FileTree) {p q : Path} (h : (p == q) = true) (d : Definition) :
  ((Search.scriptElement files p d).unplaced == (Search.scriptElement files' q d).unplaced) = true
  := by
  apply Element.beq_iff.mpr
  exact ⟨rfl, CallPosition.beq_iff.mpr ⟨h, rfl, rfl⟩, rfl, rfl, rfl, rfl, rfl, rfl⟩

/-- The elements of equal paths are equal if their files are at equal places. -/
theorem scriptElement_beq {files files' : FileTree} {p q : Path} (h : (p == q) = true)
    (hplace : (files.place p == files'.place q) = true) (d : Definition) :
  (Search.scriptElement files p d == Search.scriptElement files' q d) = true
  := by
  apply Element.beq_iff.mpr
  exact ⟨hplace, CallPosition.beq_iff.mpr ⟨h, rfl, rfl⟩, rfl, rfl, rfl, rfl, rfl, rfl⟩

/-- Roots that agree in their elements have them at the same places, component by component. -/
theorem Roots.Agree.components_find? {F : ResolutionError → ResolutionError → Prop} {r r' : Roots Path}
    (h : r.Agree (fun a b => a == b) F r') (key : Path) :
  (r.nodes.find? key).map (·.element.path.map Path.components) =
    (r'.nodes.find? key).map (·.element.path.map Path.components)
  := by
  have hnodes := h.nodes key
  generalize r.nodes.find? key = a at hnodes
  generalize r'.nodes.find? key = b at hnodes
  cases hnodes with
  | none => rfl
  | some helements => rw [Option.map_some, Option.map_some, Element.components_of_beq helements]

/-- Modules that are resolved show their outcomes. -/
theorem tracks_moduleRoots {w : Workspace σ} (hw : w.Answers answers) (searchPath : List Path)
    (names : List String) :
  (w.run (Search.moduleRoots searchPath names)).1.Tracks names (moduleOutcomes answers searchPath)
  :=
  (Roots.Tracks.empty _).rootsOf hw names fun name _ _ hw' _ => hw'.run_moduleNode searchPath name

/-- Scripts that are resolved show their outcomes. -/
theorem tracks_scriptRoots {w : Workspace σ} (hw : w.Answers answers) (searchPath : List Path)
    {paths : List Path} (hseen : ∀ path ∈ paths, seen w.files path) :
  (w.run (Search.scriptRoots searchPath paths)).1.Tracks paths (scriptOutcomes answers searchPath seen)
  := by
  apply (Roots.Tracks.empty _).rootsOf hw paths
  intro path hpath w' hw' hfiles
  refine ⟨w.files, path, hseen path hpath, BEq.rfl, ?_⟩
  rw [hw'.run_scriptNode, hfiles]

end CallGraph

/-!
## What a project tracks

The modules and scripts of a project track what its settings say.  This holds once they are resolved, and
every way to replace settings keeps it, be it by reconciling, by resolving everything again or without a
change of either.
-/

namespace CallGraph

variable {σ δ : Type} {answers : (q : Question) → Except ProviderError q.Answer}
  {seen : FileTree → Path → Prop}

namespace Project

/-- A project whose modules and scripts show outcomes for what its settings say, over a workspace among whose
files its scripts were seen. -/
structure IsTracked (answers : (q : Question) → Except ProviderError q.Answer)
    (seen : FileTree → Path → Prop) (p : Project δ) (w : Workspace σ) : Prop where
  provider : w.Answers answers
  among : ∀ path ∈ p.settings.scripts, seen w.files path
  modules : p.modules.Tracks p.settings.modules (moduleOutcomes answers p.settings.sysPath)
  scripts : p.scripts.Tracks p.settings.scripts (scriptOutcomes answers p.settings.sysPath seen)

/-- A project and its workspace after an attempt to replace settings; one that fails changes nothing. -/
def attempt [SettingsStore δ] (p : Project δ) (category : Category) (value : Json)
    (w : Workspace σ) : Project δ × Workspace σ :=
  match p.setSettings category value w with
  | .ok (_, p, w) => (p, w)
  | .error _ => (p, w)

namespace IsTracked

variable {p : Project δ} {w w' : Workspace σ}

/-! ### Changes of settings -/

/-- Whatever a project tracked before, what its settings say is resolved again. -/
theorem rebuild (hw : w.Answers answers) (hamong : ∀ path ∈ p.settings.scripts, seen w.files path) :
  IsTracked answers seen (p.rebuild w).1 (p.rebuild w).2
  := by
  have hw : Workspace.Answers { w with searchPath := p.settings.sysPath } answers := hw
  have hw₁ := hw.run (Search.moduleRoots p.settings.sysPath p.settings.modules)
  have hfiles₁ := Workspace.files_run (Search.moduleRoots p.settings.sysPath p.settings.modules)
    { w with searchPath := p.settings.sysPath }
  have hw₂ := hw₁.run (Search.scriptRoots p.settings.sysPath p.settings.scripts)
  have hfiles₂ :=
    (Workspace.files_run (Search.scriptRoots p.settings.sysPath p.settings.scripts) _).trans hfiles₁
  constructor
  · apply hw₂
  · intro path hpath
    exact hfiles₂ ▸ hamong path hpath
  · apply tracks_moduleRoots hw p.settings.sysPath p.settings.modules
  · apply tracks_scriptRoots hw₁
    intro path hpath
    rw [hfiles₁]
    apply hamong path hpath

/-- The tracked modules are replaced. -/
theorem setModules (h : p.IsTracked answers seen w) (new : List String) :
  IsTracked answers seen (p.setModules new w).2.1 (p.setModules new w).2.2
  := by
  have hresolved := tracks_moduleRoots h.provider p.settings.sysPath (added p.settings.modules new)
  constructor
  · apply h.provider.run _
  · intro path hpath
    apply (Workspace.files_run (Search.moduleRoots p.settings.sysPath (added p.settings.modules new)) w) ▸
      h.among path hpath
  · apply h.modules.reconcile hresolved
  · apply h.scripts

/-- The tracked scripts are replaced. -/
theorem setScripts (h : p.IsTracked answers seen w) {new : List Path}
    (hamong : ∀ path ∈ new, seen w.files path) :
  IsTracked answers seen (p.setScripts new w).2.1 (p.setScripts new w).2.2
  := by
  have hadded : ∀ path ∈ added p.settings.scripts new, seen w.files path :=
    fun path hpath => hamong path (List.mem_filter.mp hpath).1
  have hresolved := tracks_scriptRoots h.provider p.settings.sysPath hadded
  constructor
  · apply h.provider.run _
  · intro path hpath
    apply (Workspace.files_run (Search.scriptRoots p.settings.sysPath (added p.settings.scripts new)) w) ▸
      hamong path hpath
  · apply h.modules
  · apply h.scripts.reconcile hresolved

/-- The search path is replaced. -/
theorem setSearchPath (h : p.IsTracked answers seen w) (new : List Path) :
  IsTracked answers seen (p.setSearchPath new w).2.1 (p.setSearchPath new w).2.2
  := by
  rw [Project.setSearchPath]
  split
  case isTrue => apply h
  case isFalse =>
    apply rebuild (p := { p with settings := { p.settings with sysPath := new } }) h.provider h.among

/-- The project moves to another directory. -/
theorem setDirectory [SettingsStore δ] (h : p.IsTracked answers seen w) (directory : Option Path) :
  IsTracked answers seen (p.setDirectory directory) w
  := by
  rw [Project.setDirectory]
  split
  case isTrue => apply h
  case isFalse => exact ⟨h.provider, h.among, h.modules, h.scripts⟩

/-- Whatever category is to be given whatever value. -/
theorem attempt [SettingsStore δ] (h : p.IsTracked answers seen w) (category : Category) (value : Json)
    (hamong : ∀ path ∈ (p.attempt category value w).1.settings.scripts, seen w.files path) :
  IsTracked answers seen (p.attempt category value w).1 (p.attempt category value w).2
  := by
  simp only [Project.attempt, Project.setSettings] at hamong ⊢
  cases category with
  | projectSettings =>
      cases hnew : (Category.projectSettings.decodeValue value : Except SettingsError ProjectSettings) with
      | error e => apply h
      | ok new => apply h.setDirectory new.directory
  | sysPath =>
      cases hnew : (Category.sysPath.decodeValue value : Except SettingsError (List Path)) with
      | error e => apply h
      | ok new => apply h.setSearchPath new
  | bookmarks =>
      cases hnew : (Category.bookmarks.decodeValue value : Except SettingsError (List Bookmark)) with
      | error e => apply h
      | ok new => exact ⟨h.provider, h.among, h.modules, h.scripts⟩
  | modules =>
      cases hnew : (Category.modules.decodeValue value : Except SettingsError (List String)) with
      | error e => apply h
      | ok new => apply h.setModules new
  | files =>
      cases hnew : (Category.files.decodeValue value : Except SettingsError (List Path)) with
      | error e => apply h
      | ok new => exact ⟨h.provider, h.among, h.modules, h.scripts⟩
  | scripts =>
      cases hnew : (Category.scripts.decodeValue value : Except SettingsError (List Path)) with
      | error e => apply h
      | ok new =>
          rw [hnew] at hamong
          apply h.setScripts hamong

/-! ### Opening a stored project -/

/-- A project that is resolved and then stored tracks what its settings say. -/
theorem persist [SettingsStore δ] {p₁ : Project δ} {w₁ : Workspace σ} (hw : w₁.Answers answers)
    (hpersist : (p₁.rebuild w₁).1.persist (p₁.rebuild w₁).2 = (.ok (), p, w'))
    (hbefore : ∀ path ∈ p.settings.scripts, seen w₁.files path)
    (hafter : ∀ path ∈ p.settings.scripts, seen w'.files path) :
  p.IsTracked answers seen w'
  := by
  obtain ⟨result, store, files, hstored⟩ :=
    (p₁.rebuild w₁).1.exists_persistCategories (p₁.rebuild w₁).2 Category.all
  rw [Project.persist, hstored] at hpersist
  cases hpersist
  have hrebuilt : IsTracked answers seen (p₁.rebuild w₁).1 (p₁.rebuild w₁).2 := rebuild hw hbefore
  exact ⟨hrebuilt.provider, hafter, hrebuilt.modules, hrebuilt.scripts⟩

/-- A project that was opened tracks what its settings say, if its scripts were seen among the files before
the settings were stored again and are seen among those after that. -/
theorem openStored [SettingsStore δ] {store : δ} {directory : Option Path} {user : UserScope} {runtime : List Path}
    (hw : w.Answers answers) (hopened : openStored store directory user runtime w = (.ok p, w'))
    (hbefore : ∀ path ∈ p.settings.scripts, seen w.files path)
    (hafter : ∀ path ∈ p.settings.scripts, seen w'.files path) :
  p.IsTracked answers seen w'
  := by
  obtain ⟨-, -, loaded, log, -, -, -, hpersist⟩ := exists_of_openStored hopened
  have hw₁ : Workspace.Answers { w with searchPath := loaded.settings.sysPath, log } answers := hw
  exact persist hw₁ hpersist hbefore hafter

end IsTracked

end Project

end CallGraph
