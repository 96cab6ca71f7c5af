import CallGraph.Proofs.Search.Roots
import CallGraph.Proofs.Settings.Replacement
import CallGraph.Proofs.Settings.Saving

/-!
# Settings kept in files

A project whose settings are kept in files keeps them in those of its directory, once it has one, wherever it moves.
They are saved there whenever storing them does not fail, if there is room: once the directory and its backup are
made, nothing but files stands under the names of the settings' files.

What the user adds comes behind what was stored: files that the search path names as modules, other files as scripts.
An opened project has the settings that are made in this way, and its roots are what resolving them came to.
-/

namespace CallGraph

open DirectoryStore (IsReady backup)

/-- The directory that is to be made for settings, if any. -/
def DirectoryStore.toMake (s : DirectoryStore) : Option Path :=
  if s.prepared then none else s.directory

/-- A directory with room for settings: once it and its backup are made, it is clear for them. -/
def DirectoryStore.HasRoom (directory : Path) (t : FileTree) : Prop :=
  ∀ made, t.makeAll (backup directory) = (.ok (), made) → DirectoryStore.IsClear directory made

namespace DirectoryStore

/-- Whether a look-up ends at a file or at nothing. -/
def isFileAtMost : FileTree.Found → Bool
  | .present _ (.file _ _) => true
  | .present _ _ => false
  | .absent _ => true

theorem holdsFileAtMost_iff {t : FileTree} {p : Path} :
  HoldsFileAtMost t p ↔ (t.find p false).toOption.all isFileAtMost = true
  := by
  unfold HoldsFileAtMost
  cases t.find p false with
  | error e => exact ⟨fun _ => rfl, fun _ _ _ hfound => by cases hfound⟩
  | ok found =>
    cases found with
    | absent place => exact ⟨fun _ => rfl, fun _ _ _ hfound => by cases hfound⟩
    | present place entry =>
      constructor
      · intro h
        obtain ⟨octets, modified, rfl⟩ := h place entry rfl
        rfl
      · rintro h _ _ ⟨⟩
        cases entry with
        | file octets modified => exact ⟨octets, modified, rfl⟩
        | directory => cases h
        | link target => cases h

instance (t : FileTree) (p : Path) : Decidable (HoldsFileAtMost t p) :=
  decidable_of_iff _ holdsFileAtMost_iff.symm

instance (directory : Path) (t : FileTree) : Decidable (IsClear directory t) :=
  decidable_of_iff (∀ category ∈ Category.all, HoldsFileAtMost t (directory.child (fileName category)) ∧
      HoldsFileAtMost t ((backup directory).child (fileName category)))
    ⟨fun h category => h category (by cases category <;> decide), fun h category _ => h category⟩

instance (directory : Path) (t : FileTree) : Decidable (HasRoom directory t) :=
  match hmake : t.makeAll (backup directory) with
  | (.ok (), made) =>
    decidable_of_iff (IsClear directory made)
      ⟨fun h _ hmade => (Prod.mk.inj (hmake.symm.trans hmade)).2 ▸ h, fun h => h made hmake⟩
  | (.error _, _) => .isTrue fun _ hmade => nomatch hmake.symm.trans hmade

end DirectoryStore

namespace Project

/-- A directory is ready for settings and holds some. -/
def SavedIn (settings : Settings) (directory : Path) (t : FileTree) : Prop :=
  ∃ here there, IsReady directory t here there ∧ HeldIn settings t here

/-- A project whose settings are kept in files: in those of its directory, if it has one, and this is ready if it is
known to be there. -/
structure IsKept (p : Project DirectoryStore) (t : FileTree) : Prop where
  isSound : t.IsSound
  directory : ∀ directory, p.directory = some directory → p.store.directory = some directory
  ready : p.store.prepared = true → ∀ directory, p.store.directory = some directory →
    ∃ here there, IsReady directory t here there

section

variable {σ : Type} {p : Project DirectoryStore} {w : Workspace σ} {t : FileTree} {directory : Path}
  {here there : List String}

/-- Without a directory nothing is stored. -/
theorem persistCategories_nowhere (hstore : p.store.directory = none) (categories : List Category) :
  p.persistCategories w categories = (.ok (), p, w)
  := by
  induction categories with
  | nil => rfl
  | cons category rest ih =>
    have hsave : SettingsStore.save p.store w.files category (p.value category true) = (.ok (), p.store, w.files) := by
      change p.store.save w.files category (p.value category true) = _
      rw [DirectoryStore.save, DirectoryStore.saveWith, hstore]
    rw [persistCategories, hsave]
    exact ih

/-- All settings are stored in a ready directory. -/
theorem persist_of_isReady (hstore : p.store = ⟨some directory, true⟩) (h : IsReady directory w.files here there) :
  ∃ t, p.persist w = (.ok (), p, { w with files := t }) ∧ IsReady directory t here there ∧ HeldIn p.settings t here
  := by
  have hnodup : Category.all.Nodup := by decide
  obtain ⟨t, hpersist, hready, hheld, -⟩ := persistCategories_of_isReady hstore h hnodup
  exact ⟨t, hpersist, hready, fun category => hheld category (by cases category <;> decide)⟩

/-- All settings are stored in a directory that can be made and has room. -/
theorem persist_of_makeAll {made : FileTree} (hstore : p.store = ⟨some directory, false⟩)
    (hmake : w.files.makeAll (backup directory) = (.ok (), made)) (hready : IsReady directory made here there) :
  ∃ t, p.persist w = (.ok (), { p with store := ⟨some directory, true⟩ }, { w with files := t }) ∧
    IsReady directory t here there ∧ HeldIn p.settings t here
  := by
  obtain ⟨t, hpersist, h⟩ := persist_of_isReady (p := { p with store := ⟨some directory, true⟩ })
    (w := { w with files := made }) rfl hready
  refine ⟨t, Eq.trans ?_ hpersist, h⟩
  have hsave (category : Category) (value : Json) : SettingsStore.save p.store w.files category value =
      SettingsStore.save (⟨some directory, true⟩ : DirectoryStore) made category value := by
    rw [hstore]
    exact DirectoryStore.save_of_makeAll hmake (fun hprepared => by cases hprepared) category value
  rw [persist, persist, Category.all, persistCategories, persistCategories, hsave]
  rfl

/-- In a directory that cannot be made nothing is stored. -/
theorem persist_of_makeAll_error {cause : FileError} (hstore : p.store = ⟨some directory, false⟩)
    (hmake : w.files.makeAll (backup directory) = (.error cause, t)) :
  p.persist w = (.error (.unsaved (backup directory) cause), p, { w with files := t })
  := by
  have hsave (category : Category) (value : Json) : SettingsStore.save p.store w.files category value =
      (.error (.unsaved (backup directory) cause), p.store, t) := by
    rw [hstore]
    exact DirectoryStore.save_of_makeAll_error hmake category value
  rw [persist, Category.all, persistCategories, hsave]

/-- A directory that was made and has room is ready. -/
theorem exists_isReady_of_makeAll {made : FileTree} (hsound : t.IsSound)
    (hmake : t.makeAll (backup directory) = (.ok (), made)) (hroom : DirectoryStore.HasRoom directory t) :
  ∃ here there, IsReady directory made here there
  := by
  obtain ⟨hmade, hdirectory⟩ := FileTree.isDirectory_of_makeDirectories hsound hmake
  exact DirectoryStore.exists_isReady hmade (hdirectory (DirectoryStore.backup_nonempty directory))
    (hroom made hmake)

/-- Settings are stored where they are kept. -/
theorem directory_persistCategories (p : Project DirectoryStore) (w : Workspace σ) (categories : List Category) :
  (p.persistCategories w categories).2.1.store.directory = p.store.directory
  := by
  induction categories generalizing p w with
  | nil => rfl
  | cons category rest ih =>
    have hsave : (SettingsStore.save p.store w.files category (p.value category true)).2.1.directory =
        p.store.directory := by
      change (p.store.saveWith FileTree.act w.files category (p.value category true)).2.1.directory = _
      rw [DirectoryStore.saveWith]
      split
      · rfl
      · dsimp only
        generalize DirectoryStore.carryOut _ _ _ = prepared
        obtain ⟨result, files⟩ := prepared
        cases result <;> rfl
    rw [persistCategories]
    generalize SettingsStore.save p.store w.files category (p.value category true) = saved at hsave
    obtain ⟨result, store, files⟩ := saved
    cases result with
    | error e => exact hsave
    | ok => exact (ih { p with store } { w with files }).trans hsave

theorem IsKept.congr {p' : Project DirectoryStore} {t' : FileTree} (h : p.IsKept t) (hstore : p'.store = p.store)
    (hdirectory : p'.directory = p.directory) (hfiles : t' = t) :
  p'.IsKept t'
  := by
  subst hfiles
  refine ⟨h.isSound, fun directory hp => ?_, ?_⟩
  · rw [hstore]
    exact h.directory directory (hdirectory ▸ hp)
  · rw [hstore]
    exact h.ready

/-- A project is kept wherever its settings are, if it moves. -/
theorem IsKept.setDirectory (h : p.IsKept t) (directory : Option Path) :
  (p.setDirectory directory).IsKept t ∧
    (p.store.prepared = false → (p.setDirectory directory).store.prepared = false)
  := by
  rw [Project.setDirectory]
  split
  case isTrue => exact ⟨h, id⟩
  case isFalse =>
    refine ⟨⟨h.isSound, fun _ => id, fun hprepared => ?_⟩, fun _ => rfl⟩
    cases hprepared

/-- A project stays kept when it is stored, and its settings are saved unless this fails. -/
theorem IsKept.persist (h : p.IsKept w.files)
    (hroom : ∀ directory ∈ p.store.toMake, DirectoryStore.HasRoom directory w.files) :
  ∃ result store t, p.persist w = (result, { p with store }, { w with files := t }) ∧ IsKept { p with store } t ∧
    (result = .ok () → ∀ directory, p.directory = some directory → SavedIn p.settings directory t)
  := by
  cases hplace : p.store.directory with
  | none =>
    refine ⟨.ok (), p.store, w.files, persistCategories_nowhere hplace Category.all, h, fun _ directory hdirectory => ?_⟩
    cases hplace.symm.trans (h.directory directory hdirectory)
  | some place =>
    have hown (directory : Path) (hdirectory : p.directory = some directory) : directory = place :=
      Option.some.inj ((h.directory directory hdirectory).symm.trans hplace)
    have hsaved {t : FileTree} {here there : List String} (hready : IsReady place t here there)
        (hheld : HeldIn p.settings t here) :
        IsKept { p with store := ⟨some place, true⟩ } t ∧
        ∀ directory, p.directory = some directory → SavedIn p.settings directory t := by
      refine ⟨⟨hready.isSound, fun directory hdirectory => ?_, fun _ directory hdirectory => ?_⟩,
        fun directory hdirectory => ?_⟩
      · rw [hown directory hdirectory]
      · cases hdirectory
        exact ⟨here, there, hready⟩
      · rw [hown directory hdirectory]
        exact ⟨here, there, hready, hheld⟩
    cases hprepared : p.store.prepared with
    | true =>
      have hstore : p.store = ⟨some place, true⟩ := by
        rw [← hplace, ← hprepared]
      obtain ⟨here, there, hready⟩ := h.ready hprepared place hplace
      obtain ⟨t, hpersist, hready, hheld⟩ := persist_of_isReady hstore hready
      obtain ⟨hkept, hsaved⟩ := hsaved hready hheld
      refine ⟨.ok (), _, t, ?_, hkept, fun _ => hsaved⟩
      rw [← hstore]
      exact hpersist
    | false =>
      have hstore : p.store = ⟨some place, false⟩ := by
        rw [← hplace, ← hprepared]
      have htoMake : p.store.toMake = some place := by
        rw [hstore]
        rfl
      cases hmake : w.files.makeAll (backup place) with
      | mk result made =>
        cases result with
        | error cause =>
          refine ⟨_, p.store, made, persist_of_makeAll_error hstore hmake, ⟨?_, h.directory, ?_⟩, nofun⟩
          · have hgains := w.files.gains_makeAll (backup place)
            rw [hmake] at hgains
            exact h.isSound.of_gains hgains
          · rw [hprepared]
            nofun
        | ok =>
          obtain ⟨here, there, hready⟩ := exists_isReady_of_makeAll h.isSound hmake (hroom place htoMake)
          obtain ⟨t, hpersist, hready, hheld⟩ := persist_of_makeAll hstore hmake hready
          obtain ⟨hkept, hsaved⟩ := hsaved hready hheld
          exact ⟨.ok (), _, t, hpersist, hkept, fun _ => hsaved⟩

end

/-! ### Opening -/

section

variable {σ δ : Type} {p : Project δ}

/-- Resolving everything changes neither the settings nor the files. -/
theorem settings_rebuild (p : Project δ) (w : Workspace σ) :
  (p.rebuild w).1.store = p.store ∧ (p.rebuild w).1.settings = p.settings ∧ (p.rebuild w).2.files = w.files
  := by
  refine ⟨rfl, rfl, ?_⟩
  exact (Workspace.files_run _ _).trans (Workspace.files_run _ _)

/-- A value is merged into other settings than the project's own, unless it moves the project; the scripts gain what they
lack. -/
theorem cases_of_mergeValue [SettingsStore δ] {p' : Project δ} {category : Category} {value : Json}
    (h : p.mergeValue category value = .ok p') :
  (∃ place, p' = p.setDirectory place) ∨
    ∃ settings, p' = { p with settings } ∧ settings.projectSettings = p.settings.projectSettings ∧
      ∃ new, settings.scripts = appendMissing p.settings.scripts new
  := by
  have hkeeping {α : Type} [Codec α] {f : α → Settings} {g : α → List Path}
      (hf : ∀ a, (f a).projectSettings = p.settings.projectSettings ∧
        (f a).scripts = appendMissing p.settings.scripts (g a))
      (h : (category.decodeValue value >>= fun a => Except.ok { p with settings := f a }) = .ok p') :
      ∃ settings, p' = { p with settings } ∧ settings.projectSettings = p.settings.projectSettings ∧
        ∃ new, settings.scripts = appendMissing p.settings.scripts new := by
    cases hdecode : (category.decodeValue value : Except SettingsError α) with
    | error e =>
      rw [hdecode] at h
      cases h
    | ok a =>
      rw [hdecode] at h
      cases h
      exact ⟨f a, rfl, (hf a).1, g a, (hf a).2⟩
  cases category with
  | projectSettings =>
    simp only [mergeValue] at h
    cases hfield : value.field? "project_directory" with
    | none =>
      rw [hfield] at h
      cases h
      exact .inr ⟨p.settings, rfl, rfl, [], rfl⟩
    | some directory =>
      rw [hfield] at h
      cases hdecode : (Category.projectSettings.decodeValue directory : Except SettingsError (Option Path)) with
      | error e =>
        simp only [hdecode] at h
        cases h
      | ok place =>
        simp only [hdecode] at h
        cases h
        exact .inl ⟨place, rfl⟩
  | sysPath =>
    let merged (new : List Path) : Settings := { p.settings with sysPath := appendMissing p.settings.sysPath new }
    exact .inr (hkeeping (f := merged) (g := fun _ => []) (fun _ => ⟨rfl, rfl⟩) h)
  | bookmarks =>
    let merged (new : List Bookmark) : Settings :=
      { p.settings with bookmarks := appendMissing p.settings.bookmarks new }
    exact .inr (hkeeping (f := merged) (g := fun _ => []) (fun _ => ⟨rfl, rfl⟩) h)
  | modules =>
    let merged (new : List String) : Settings := { p.settings with modules := appendMissing p.settings.modules new }
    exact .inr (hkeeping (f := merged) (g := fun _ => []) (fun _ => ⟨rfl, rfl⟩) h)
  | files =>
    let merged (new : List Path) : Settings := { p.settings with files := appendMissing p.settings.files new }
    exact .inr (hkeeping (f := merged) (g := fun _ => []) (fun _ => ⟨rfl, rfl⟩) h)
  | scripts =>
    let merged (new : List Path) : Settings := { p.settings with scripts := appendMissing p.settings.scripts new }
    exact .inr (hkeeping (f := merged) (g := id) (fun _ => ⟨rfl, rfl⟩) h)

end

section

variable {σ : Type} {p p' : Project DirectoryStore} {t : FileTree}

/-- A project is kept whatever is merged into its settings. -/
theorem IsKept.mergeValues (h : p.IsKept t) (hprepared : p.store.prepared = false) {values : List (Category × Json)}
    (hmerge : p.mergeValues values = (.ok (), p')) :
  p'.IsKept t ∧ p'.store.prepared = false
  := by
  induction values generalizing p with
  | nil =>
    cases hmerge
    exact ⟨h, hprepared⟩
  | cons value rest ih =>
    obtain ⟨category, value⟩ := value
    rw [Project.mergeValues] at hmerge
    cases hvalue : p.mergeValue category value with
    | error e =>
      rw [hvalue] at hmerge
      cases hmerge
    | ok merged =>
      rw [hvalue] at hmerge
      rcases cases_of_mergeValue hvalue with ⟨place, rfl⟩ | ⟨settings, rfl, hown, -⟩
      · obtain ⟨hmoved, hunprepared⟩ := h.setDirectory place
        exact ih hmoved (hunprepared hprepared) hmerge
      · have hkept : IsKept { p with settings } t := h.congr rfl (congrArg ProjectSettings.directory hown) rfl
        exact ih hkept hprepared hmerge

/-- A project that is opened with room for its settings is kept, and its settings are saved. -/
theorem isKept_of_openStored {e place : Option Path} {user : UserScope} {runtime : List Path} {w w' : Workspace σ}
    (hsound : w.files.IsSound)
    (hopened : openStored ({ directory := e } : DirectoryStore) place user runtime w = (.ok p, w'))
    (hroom : ∀ directory ∈ p.store.directory, DirectoryStore.HasRoom directory w.files) :
  p.IsKept w'.files ∧ ∀ directory, p.directory = some directory → SavedIn p.settings directory w'.files
  := by
  obtain ⟨stored, merged, loaded, log, -, hmerge, hloaded, hpersist⟩ := exists_of_openStored hopened
  have hstore : loaded.store = merged.store := hloaded ▸ rfl
  have hdirectory : loaded.directory = merged.directory := hloaded ▸ rfl
  generalize hw : ({ w with searchPath := loaded.settings.sysPath, log } : Workspace σ) = w₁ at hpersist
  have hfiles : w₁.files = w.files := hw ▸ rfl
  have hnew : IsKept { store := { directory := e } } w.files := ⟨hsound, nofun, nofun⟩
  obtain ⟨hplaced, hunprepared⟩ := hnew.setDirectory place
  obtain ⟨hmerged, -⟩ := hplaced.mergeValues (hunprepared rfl) hmerge
  have hrebuilt : (loaded.rebuild w₁).1.IsKept (loaded.rebuild w₁).2.files := by
    obtain ⟨hstore', hsettings', hfiles'⟩ := settings_rebuild loaded w₁
    refine hmerged.congr (hstore'.trans hstore) ?_ (hfiles'.trans hfiles)
    exact (congrArg (·.projectSettings.directory) hsettings').trans hdirectory
  have hplaced : p.store.directory = (loaded.rebuild w₁).1.store.directory := by
    have hkept := directory_persistCategories (loaded.rebuild w₁).1 (loaded.rebuild w₁).2 Category.all
    rw [persist] at hpersist
    rwa [hpersist] at hkept
  obtain ⟨result, store, t, hpersist', hkept, hsaved⟩ := hrebuilt.persist fun directory hdirectory => by
    rw [(settings_rebuild loaded w₁).2.2, hfiles]
    apply hroom
    rw [hplaced]
    rw [DirectoryStore.toMake] at hdirectory
    split at hdirectory
    · cases hdirectory
    · exact hdirectory
  cases hpersist'.symm.trans hpersist
  exact ⟨hkept, hsaved rfl⟩

end

end Project

/-! ### What is tracked when a project is opened -/

section

namespace ScopeSettings

/-- The names that a search path gives to some files. -/
def fileModules (files : FileTree) (searchPath added : List Path) : List String :=
  added.filterMap (moduleName? files searchPath)

/-- The files that a search path gives no name to. -/
def looseFiles (files : FileTree) (searchPath added : List Path) : List Path :=
  added.filter fun file => (moduleName? files searchPath file).isNone && files.isFile file

theorem fst_foldl_addFile (files : FileTree) (added : List Path) (s : ScopeSettings) (log : List LogLine) :
  (added.foldl (addFile files) (s, log)).1 =
    { s with
      moduleNames := s.moduleNames ++ fileModules files s.searchPath added
      scripts := s.scripts ++ looseFiles files s.searchPath added }
  := by
  induction added generalizing s log with
  | nil =>
    rw [fileModules, looseFiles, List.filterMap_nil, List.filter_nil, List.append_nil, List.append_nil, List.foldl_nil]
  | cons file added ih =>
    rw [List.foldl_cons, addFile]
    cases hname : moduleName? files s.searchPath file with
    | some name =>
      dsimp only
      rw [ih, fileModules, fileModules, looseFiles, looseFiles, List.filterMap_cons_some hname,
        List.filter_cons_of_neg (by simp [hname]), ← List.append_cons]
    | none =>
      dsimp only
      split
      case isTrue hfile =>
        rw [ih, fileModules, fileModules, looseFiles, looseFiles, List.filterMap_cons_none hname,
          List.filter_cons_of_pos (by simp [hname, hfile]), ← List.append_cons]
      case isFalse hfile =>
        rw [ih, fileModules, fileModules, looseFiles, looseFiles, List.filterMap_cons_none hname,
          List.filter_cons_of_neg (by simp [hfile])]

/-- What the user adds comes behind what was saved. -/
theorem fst_merge (files : FileTree) (hasSaved : Bool) (saved : ScopeSettings) (user : UserScope)
    (runtime : List Path) :
  (merge files hasSaved saved user runtime).1 =
    let searchPath := effectivePath hasSaved saved user runtime
    { moduleNames := distinct (saved.moduleNames ++ user.moduleNames) ++ fileModules files searchPath user.files
      scripts := saved.scripts ++ looseFiles files searchPath user.files
      searchPath }
  :=
  fst_foldl_addFile files user.files _ []

end ScopeSettings

/-- Settings with what a user adds to them. -/
def Settings.extended (s : Settings) (files : FileTree) (hasSaved : Bool) (user : UserScope) (runtime : List Path) :
    Settings :=
  let searchPath := ScopeSettings.effectivePath hasSaved { searchPath := s.sysPath } user runtime
  { s with
    sysPath := searchPath
    modules := distinct (s.modules ++ user.moduleNames) ++ ScopeSettings.fileModules files searchPath user.files
    scripts := s.scripts ++ ScopeSettings.looseFiles files searchPath user.files }

namespace Project

variable {σ δ : Type} {p : Project δ} {w w' : Workspace σ}

/-- An opened project has the stored settings with what the user adds, and its roots are what these are resolved
into. -/
theorem exists_merged_of_openStored [SettingsStore δ] {store : δ} {place : Option Path} {user : UserScope}
    {runtime : List Path} (h : openStored store place user runtime w = (.ok p, w')) :
  ∃ stored merged log, ((setDirectory { store } place).loadStored w).1 = .ok stored ∧
    mergeValues (setDirectory { store } place) stored = (.ok (), merged) ∧
    p.settings = merged.settings.extended w.files (!stored.isEmpty) user runtime ∧
    p.modules = (Workspace.run (Search.moduleRoots p.settings.sysPath p.settings.modules)
      { w with searchPath := p.settings.sysPath, log }).1 ∧
    p.scripts = (Workspace.run (Search.scriptRoots p.settings.sysPath p.settings.scripts)
      (Workspace.run (Search.moduleRoots p.settings.sysPath p.settings.modules)
        { w with searchPath := p.settings.sysPath, log }).2).1
  := by
  obtain ⟨stored, merged, loaded, log, hload, hmerge, hloaded, hpersist⟩ := exists_of_openStored h
  obtain ⟨result, store', files, hstored⟩ := (loaded.rebuild
    { w with searchPath := loaded.settings.sysPath, log }).1.exists_persistCategories
      (loaded.rebuild { w with searchPath := loaded.settings.sysPath, log }).2 Category.all
  rw [persist, hstored] at hpersist
  cases hpersist
  refine ⟨stored, merged, log, hload, hmerge, ?_, rfl, rfl⟩
  change loaded.settings = _
  rw [hloaded, loadScope, ScopeSettings.fst_merge]
  rfl

theorem exists_of_opened {opened : Except SettingsError (Project δ) × Workspace σ} {check : Project δ → Bool}
    (h : opened.1.toOption.any check = true) :
  ∃ p w', opened = (.ok p, w') ∧ check p = true
  := by
  obtain ⟨result, w'⟩ := opened
  cases result with
  | error e => cases h
  | ok p => exact ⟨p, w', rfl, h⟩

end Project

end

end CallGraph
