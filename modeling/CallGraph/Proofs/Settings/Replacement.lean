import CallGraph.Proofs.Path
import CallGraph.Settings.Project

/-!
# Replacing settings

To replace the settings of a category is to decode a value, which does not depend on the project, and to carry
out the `Replacement` that it stands for, which cannot fail.  The store takes no part in it, and the same
replacement carried out again changes nothing.  Storing settings changes nothing but the store and the files.
-/

namespace CallGraph

variable {σ δ : Type}

/-- The settings of a category, decoded. -/
inductive Replacement where
  | directory (new : Option Path)
  | sysPath (new : List Path)
  | bookmarks (new : List Bookmark)
  | modules (new : List String)
  | files (new : List Path)
  | scripts (new : List Path)

namespace Replacement

/-- The category whose settings are replaced. -/
def category : Replacement → Category
  | .directory _ => .projectSettings
  | .sysPath _ => .sysPath
  | .bookmarks _ => .bookmarks
  | .modules _ => .modules
  | .files _ => .files
  | .scripts _ => .scripts

/-- What a value stands for in a category. -/
def ofValue (value : Json) : Category → Except SettingsError Replacement
  | .projectSettings => (Category.projectSettings.decodeValue value).map fun new : ProjectSettings =>
    .directory new.directory
  | .sysPath => (Category.sysPath.decodeValue value).map .sysPath
  | .bookmarks => (Category.bookmarks.decodeValue value).map .bookmarks
  | .modules => (Category.modules.decodeValue value).map .modules
  | .files => (Category.files.decodeValue value).map .files
  | .scripts => (Category.scripts.decodeValue value).map .scripts

/-- A value stands for settings of its category. -/
theorem category_of_ofValue {value : Json} {category : Category} {new : Replacement}
    (h : ofValue value category = .ok new) :
  new.category = category
  := by
  have hmap {α : Type} {found : Except SettingsError α} {f : α → Replacement} (h : found.map f = .ok new) :
      ∃ a, f a = new := by
    cases found with
    | error e => cases h
    | ok a => exact ⟨a, Except.ok.inj h⟩
  cases category <;>
  · obtain ⟨_, rfl⟩ := hmap h
    rfl

/-- A value that stands for no settings cannot be decoded. -/
theorem exists_of_ofValue_eq_error {value : Json} {category : Category} {e : SettingsError}
    (h : ofValue value category = .error e) :
  ∃ fault, e = .undecodable category fault
  := by
  have hmap {α : Type} [Codec α] {f : α → Replacement}
      (h : (category.decodeValue value : Except SettingsError α).map f = .error e) :
      ∃ fault, e = .undecodable category fault := by
    rw [Category.decodeValue] at h
    split at h
    · cases h
    · cases h
      exact ⟨_, rfl⟩
  cases category <;> exact hmap h

end Replacement

namespace Project

variable {p : Project δ} {w : Workspace σ}

/-- Carries out a replacement. -/
def replace [SettingsStore δ] (p : Project δ) (w : Workspace σ) : Replacement → SettingsChange × Project δ × Workspace σ
  | .directory new => ({ changed := true }, p.setDirectory new, w)
  | .sysPath new => p.setSearchPath new w
  | .bookmarks new =>
    ({ changed := new != p.settings.bookmarks }, { p with settings := { p.settings with bookmarks := new } }, w)
  | .modules new => p.setModules new w
  | .files new => ({ changed := new != p.settings.files }, { p with settings := { p.settings with files := new } }, w)
  | .scripts new => p.setScripts new w

/-- To replace settings is to carry out what the value stands for. -/
theorem setSettings_eq [SettingsStore δ] (p : Project δ) (category : Category) (value : Json) (w : Workspace σ) :
  p.setSettings category value w = (Replacement.ofValue value category).map (p.replace w)
  := by
  cases category with
  | projectSettings =>
    simp only [setSettings, Replacement.ofValue]
    cases (Category.projectSettings.decodeValue value : Except SettingsError ProjectSettings) <;> rfl
  | sysPath =>
    simp only [setSettings, Replacement.ofValue]
    cases (Category.sysPath.decodeValue value : Except SettingsError (List Path)) <;> rfl
  | bookmarks =>
    simp only [setSettings, Replacement.ofValue]
    cases (Category.bookmarks.decodeValue value : Except SettingsError (List Bookmark)) <;> rfl
  | modules =>
    simp only [setSettings, Replacement.ofValue]
    cases (Category.modules.decodeValue value : Except SettingsError (List String)) <;> rfl
  | files =>
    simp only [setSettings, Replacement.ofValue]
    cases (Category.files.decodeValue value : Except SettingsError (List Path)) <;> rfl
  | scripts =>
    simp only [setSettings, Replacement.ofValue]
    cases (Category.scripts.decodeValue value : Except SettingsError (List Path)) <;> rfl

/-! ### Replacing again -/

/-- Nothing is added to what is there. -/
theorem added_self {κ : Type} [BEq κ] [ReflBEq κ] (entries : List κ) :
  added entries entries = []
  := by
  rw [added, List.filter_eq_nil_iff]
  intro key hkey
  rw [List.contains_iff_exists_mem_beq.mpr ⟨key, hkey, BEq.rfl⟩]
  simp

/-- Roots brought from some entries to the same entries do not change. -/
theorem reconcile_self {κ : Type} [BEq κ] [ReflBEq κ] (entries : List κ) (r : Roots κ) :
  reconcile entries entries r {} = ({ changed := false }, r)
  := by
  have hdropped := added_self entries
  rw [added] at hdropped
  rw [reconcile, hdropped]
  rfl

/-- A project that moves again stays where it is. -/
theorem setDirectory_again [SettingsStore δ] (p : Project δ) (new : Option Path) (store : δ) :
  setDirectory { p.setDirectory new with store } new = { p.setDirectory new with store }
  := by
  have hmoved : ((p.setDirectory new).directory == new) = true := by
    by_cases h : (p.directory == new) = true
    · rw [setDirectory, if_pos h]
      exact h
    · rw [setDirectory, if_neg h]
      apply BEq.rfl
  rw [setDirectory]
  exact if_pos hmoved

/-- A workspace in which the files of the tracked nodes are searched has them searched already. -/
theorem refreshScope_eq_self (hscope : (p.refreshScope w).scope = w.scope) :
  p.refreshScope w = w
  := by
  change { w with scope := (p.refreshScope w).scope } = w
  rw [hscope]

/-- Tracked modules are replaced by themselves without a change. -/
theorem setModules_self (p : Project δ) (w : Workspace σ) :
  p.setModules p.settings.modules w = ({ changed := false }, p, p.refreshScope w)
  := by
  have hroots : Search.moduleRoots p.settings.sysPath (added p.settings.modules p.settings.modules) = .done {} := by
    rw [added_self]
    rfl
  have hsame := reconcile_self p.settings.modules p.modules
  rw [setModules, hroots]
  dsimp only [Workspace.run]
  rw [hsame]

/-- Tracked scripts are replaced by themselves without a change. -/
theorem setScripts_self (p : Project δ) (w : Workspace σ) :
  p.setScripts p.settings.scripts w = ({ changed := false }, p, p.refreshScope w)
  := by
  have hroots : Search.scriptRoots p.settings.sysPath (added p.settings.scripts p.settings.scripts) = .done {} := by
    rw [added_self]
    rfl
  have hsame := reconcile_self p.settings.scripts p.scripts
  rw [setScripts, hroots]
  dsimp only [Workspace.run]
  rw [hsame]

/-- A replacement that is carried out again, over a workspace that searches the same files, changes nothing. -/
theorem replace_again [SettingsStore δ] (p : Project δ) (w : Workspace σ) (new : Replacement) (store : δ)
    {again : Workspace σ}
    (hscope : new.category = .modules ∨ new.category = .scripts → again.scope = (p.replace w new).2.2.scope) :
  ∃ change, replace { (p.replace w new).2.1 with store } again new =
      (change, { (p.replace w new).2.1 with store }, again) ∧
    (change.changed = true → new.category ≠ .sysPath ∧ new.category ≠ .modules ∧ new.category ≠ .scripts)
  := by
  cases new with
  | directory new =>
    refine ⟨{ changed := true }, ?_, fun _ => by simp [Replacement.category]⟩
    change (_, setDirectory _ _, _) = _
    rw [replace, setDirectory_again]
  | bookmarks new => exact ⟨_, rfl, fun _ => by simp [Replacement.category]⟩
  | files new => exact ⟨_, rfl, fun _ => by simp [Replacement.category]⟩
  | sysPath new =>
    refine ⟨{ changed := false }, ?_, by rintro ⟨⟩⟩
    have hpath : (new == (p.setSearchPath new w).2.1.settings.sysPath) = true := by
      rw [setSearchPath]
      split
      case isTrue h => exact h
      case isFalse => apply BEq.rfl
    rw [replace, replace, setSearchPath]
    exact if_pos hpath
  | modules new =>
    refine ⟨{ changed := false }, (setModules_self _ again).trans ?_, by rintro ⟨⟩⟩
    exact congrArg (({ changed := false } : SettingsChange), _, ·) (refreshScope_eq_self (hscope (.inl rfl)).symm)
  | scripts new =>
    refine ⟨{ changed := false }, (setScripts_self _ again).trans ?_, by rintro ⟨⟩⟩
    exact congrArg (({ changed := false } : SettingsChange), _, ·) (refreshScope_eq_self (hscope (.inr rfl)).symm)

/-! ### The store -/

/-- Another store takes no part when settings are replaced, if moving the project changes nothing in it. -/
theorem replace_inMemory [SettingsStore δ] (p : Project δ) (m : MemoryStore) (w : Workspace σ) (new : Replacement) :
  replace { p with store := m } w new =
    ((p.replace w new).1, { (p.replace w new).2.1 with store := m }, (p.replace w new).2.2)
  := by
  cases new with
  | directory new =>
    have hmoved : setDirectory { p with store := m } new = { p.setDirectory new with store := m } := by
      rw [setDirectory, setDirectory]
      change (if (p.directory == new) = true then _ else _) = _
      split <;> rfl
    exact congrArg (({ changed := true } : SettingsChange), ·, w) hmoved
  | sysPath new =>
    rw [replace, replace, setSearchPath, setSearchPath]
    change (if (new == p.settings.sysPath) = true then _ else _) = _
    split <;> rfl
  | bookmarks | modules | files | scripts => rfl

/-- Storing settings changes the store and the files only. -/
theorem exists_persistCategories [SettingsStore δ] (p : Project δ) (w : Workspace σ) (categories : List Category) :
  ∃ result store files, p.persistCategories w categories = (result, { p with store }, { w with files })
  := by
  induction categories generalizing p w with
  | nil => exact ⟨_, p.store, w.files, rfl⟩
  | cons category rest ih =>
    rw [persistCategories]
    generalize SettingsStore.save p.store w.files category (p.value category true) = saved
    obtain ⟨result, store, files⟩ := saved
    cases result with
    | ok => apply ih { p with store } { w with files }
    | error e => exact ⟨_, store, files, rfl⟩

/-- All settings can be stored in memory. -/
theorem exists_persistCategories_inMemory (p : Project MemoryStore) (w : Workspace σ) (categories : List Category) :
  ∃ m, p.persistCategories w categories = (.ok (), { p with store := m }, w)
  := by
  induction categories generalizing p with
  | nil => exact ⟨p.store, rfl⟩
  | cons category rest ih => apply ih { p with store := p.store.save category (p.value category true) }

/-! ### Opening -/

/-- Loading settings changes the log only. -/
theorem exists_loadCategories [SettingsStore δ] (p : Project δ) (w : Workspace σ) (categories : List Category) :
  ∃ result log, p.loadCategories w categories = (result, { w with log })
  := by
  induction categories generalizing w with
  | nil => exact ⟨_, w.log, rfl⟩
  | cons category rest ih =>
    rw [loadCategories]
    split
    case h_1 =>
      obtain ⟨result, log, h⟩ := ih w
      rw [h]
      exact ⟨_, log, rfl⟩
    case h_2 => exact ih (w.note _)
    case h_3 => exact ⟨_, w.log, rfl⟩

/-- A project that was opened has merged the stored settings and what the user adds, then was resolved and stored. -/
theorem exists_of_openStored [SettingsStore δ] {store : δ} {place : Option Path} {user : UserScope}
    {runtime : List Path} {w' : Workspace σ} (h : openStored store place user runtime w = (.ok p, w')) :
  ∃ stored merged loaded log, ((setDirectory { store } place).loadStored w).1 = .ok stored ∧
    mergeValues (setDirectory { store } place) stored = (.ok (), merged) ∧
    loaded = (merged.loadScope
      (ScopeSettings.merge w.files (!stored.isEmpty) merged.scopeSettings user runtime).1 w).1 ∧
    (rebuild loaded { w with searchPath := loaded.settings.sysPath, log }).1.persist
      (rebuild loaded { w with searchPath := loaded.settings.sysPath, log }).2 = (.ok (), p, w')
  := by
  obtain ⟨result, log, hread⟩ := exists_loadCategories (setDirectory { store : Project δ } place) w Category.all
  rw [openStored, loadStored, hread] at h
  cases result with
  | error e => cases h
  | ok stored =>
    dsimp only at h
    generalize hmerged : mergeValues (setDirectory { store : Project δ } place) stored = merging at h
    obtain ⟨result, merged⟩ := merging
    cases result with
    | error e => cases h
    | ok =>
      dsimp only at h
      generalize htracked : ScopeSettings.merge _ _ _ _ _ = tracked at h
      obtain ⟨scope, lines⟩ := tracked
      dsimp only at h
      split at h
      case h_1 => cases h
      case h_2 hpersist =>
        cases h
        refine ⟨stored, merged, (merged.loadScope scope w).1, log ++ lines, ?_, hmerged, ?_, hpersist⟩
        · rw [loadStored, hread]
        · rw [htracked]

end Project

end CallGraph
