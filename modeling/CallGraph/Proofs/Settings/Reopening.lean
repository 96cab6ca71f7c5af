import CallGraph.Proofs.Json.Codec
import CallGraph.Proofs.Settings.Kept
import CallGraph.Proofs.Settings.Repeats
import CallGraph.Proofs.Settings.Replacement
import CallGraph.Provider.Scripted

/-!
# Opening a project again

The values that settings are stored as are read back from their files, and decode to the settings.  So a project
that is opened in a directory that holds settings has these settings, each list without repeats and the search path
without empty entries.

The value that a category is shown as decodes to the settings it was made from as well, so to replace settings by their
own value changes neither them nor any node.  A value that is accepted may be spelled in many ways, with arrays for
records, without optional fields or with unknown ones; what it decodes to is spelled in one, and decoded from it
again.
-/

namespace CallGraph

open Codec (IsFaithful)
open DirectoryStore (IsReady backup fileName content)
open FileTree (Leads)

/-- Settings of a project in a directory, with the lists of other ones without their repeats. -/
def Settings.merged (s : Settings) (directory : Path) : Settings where
  projectSettings := { directory := some directory }
  sysPath := distinct s.sysPath
  bookmarks := distinct s.bookmarks
  modules := distinct s.modules
  files := distinct s.files
  scripts := distinct s.scripts

/-- The settings of a project that is opened in a directory that holds some settings: they lack repeats and empty
entries of the search path. -/
def Settings.reopened (s : Settings) (directory : Path) : Settings :=
  { s.merged directory with sysPath := (distinct s.sysPath).filter fun p => !p.spelling.isEmpty }

/-! ### Stored values -/

theorem isFaithful_paths :
  IsFaithful (List Path) 1
  :=
  IsFaithful.path.list

theorem isFaithful_names :
  IsFaithful (List String) 1
  :=
  IsFaithful.string.list

theorem isFaithful_bookmarks :
  IsFaithful (List Bookmark) 5
  :=
  IsFaithful.element.list.list

/-- Settings are stored as plain JSON. -/
theorem Settings.isPlain_storedValue (s : Settings) (category : Category) :
  Json.IsPlain 5 (s.storedValue category)
  := by
  have hpaths (paths : List Path) : Json.IsPlain 5 (encode paths) := (isFaithful_paths.isPlain paths).mono (by decide)
  cases category with
  | projectSettings => exact .object (List.forall_mem_nil _) rfl
  | sysPath => exact hpaths s.sysPath
  | bookmarks => exact isFaithful_bookmarks.isPlain s.bookmarks
  | modules => exact (isFaithful_names.isPlain s.modules).mono (by decide)
  | files => exact hpaths s.files
  | scripts => exact hpaths s.scripts

theorem Category.decodeValue_encode {α : Type} [Codec α] {height : Nat} (h : IsFaithful α height) (category : Category)
    (a : α) :
  category.decodeValue (encode a) = .ok a
  := by
  rw [decodeValue, h.decode_encode]

/-! ### Reading settings -/

namespace Project

variable {σ δ : Type} {w : Workspace σ} {t : FileTree} {directory : Path} {here there : List String} {s : Settings}

/-- Settings that a directory holds are loaded from it. -/
theorem load_of_heldIn (hleads : t.Leads directory here) (h : HeldIn s t here) (prepared : Bool) (category : Category) :
  DirectoryStore.load ⟨some directory, prepared⟩ t category = .ok (some (s.storedValue category))
  := by
  obtain ⟨modified, hentry⟩ := h category
  have hfile : DirectoryStore.file? ⟨some directory, prepared⟩ category = some (directory.child (fileName category)) :=
    rfl
  rw [DirectoryStore.load, hfile]
  dsimp only
  rw [FileTree.readText_child hleads (DirectoryStore.isFileName_fileName category) hentry]
  dsimp only
  rw [content, Json.read_pretty (s.isPlain_storedValue category) (by decide)]

/-- Categories are loaded one after the other. -/
theorem loadCategories_of_load [SettingsStore δ] {p : Project δ} {value : Category → Json}
    (h : ∀ category, SettingsStore.load p.store w.files category = .ok (some (value category)))
    (categories : List Category) :
  p.loadCategories w categories = (.ok (categories.map fun category => (category, value category)), w)
  := by
  induction categories with
  | nil => rfl
  | cons category rest ih =>
    rw [loadCategories, h category]
    dsimp only
    rw [ih]
    rfl

/-- What was stored is merged into a project without settings. -/
theorem mergeValues_stored [SettingsStore δ] {p : Project δ}
    (hsettings : p.settings = { projectSettings := { directory := some directory } }) (s : Settings) :
  p.mergeValues (Category.all.map fun category => (category, s.storedValue category)) =
    (.ok (), { p with settings := s.merged directory })
  := by
  have hpaths (category : Category) (paths : List Path) : category.decodeValue (encode paths) = .ok paths :=
    category.decodeValue_encode isFaithful_paths paths
  have hbookmarks : Category.bookmarks.decodeValue (encode s.bookmarks) = .ok s.bookmarks :=
    Category.bookmarks.decodeValue_encode isFaithful_bookmarks s.bookmarks
  have hmodules : Category.modules.decodeValue (encode s.modules) = .ok s.modules :=
    Category.modules.decodeValue_encode isFaithful_names s.modules
  have hown : (Json.object []).field? "project_directory" = none := rfl
  simp only [Category.all, List.map_cons, List.map_nil, mergeValues, mergeValue, Settings.storedValue,
    Settings.value, hown, hpaths, hbookmarks, hmodules, hsettings, bind, Except.bind]
  rfl

/-- Without a user's additions settings are what was loaded, without empty entries in the search path. -/
theorem extended_of_no_additions (settings : Settings) (directory : Path) (files : FileTree) {user : UserScope}
    (hmodules : user.moduleNames = []) (hfiles : user.files = []) (hpath : user.addToSearchPath = [])
    (runtime : List Path) :
  (settings.merged directory).extended files true user runtime = settings.reopened directory
  := by
  rw [Settings.extended, Settings.reopened, ScopeSettings.effectivePath, hmodules, hfiles, hpath, if_pos rfl,
    List.append_nil, List.append_nil]
  change Settings.mk _ _ _ (distinct (distinct settings.modules) ++ []) _ (_ ++ []) = _
  rw [distinct_distinct, List.append_nil, List.append_nil]
  rfl

/-- What is tracked is resolved, and stored in the project's directory, if it has one and this is ready. -/
theorem persist_loadScope {p : Project DirectoryStore} (hstore : p.store = { directory := p.directory })
    (hready : ∀ directory, p.directory = some directory → ∃ here there, IsReady directory w.files here there)
    (scope : ScopeSettings) :
  ∃ p' w', ((p.loadScope scope w).1.rebuild (p.loadScope scope w).2).1.persist
      ((p.loadScope scope w).1.rebuild (p.loadScope scope w).2).2 = (.ok (), p', w') ∧
    p'.settings = (p.loadScope scope w).1.settings
  := by
  have hfiles : (p.loadScope scope w).2.files = w.files := rfl
  have hplaced : (p.loadScope scope w).1.store = { directory := p.directory } := hstore
  generalize p.loadScope scope w = loaded at hfiles hplaced
  have hrebuilt : (loaded.1.rebuild loaded.2).2.files = w.files := (settings_rebuild loaded.1 loaded.2).2.2.trans hfiles
  cases hdirectory : p.directory with
  | none =>
    rw [hdirectory] at hplaced
    have hnowhere := persistCategories_nowhere (p := (loaded.1.rebuild loaded.2).1) (w := (loaded.1.rebuild loaded.2).2)
      (congrArg DirectoryStore.directory hplaced) Category.all
    exact ⟨_, _, hnowhere, rfl⟩
  | some directory =>
    rw [hdirectory] at hplaced
    obtain ⟨here, there, h⟩ := hready directory hdirectory
    rw [← hrebuilt] at h
    obtain ⟨t, hpersist, -⟩ := persist_of_makeAll (p := (loaded.1.rebuild loaded.2).1) hplaced h.makeAll h
    exact ⟨_, _, hpersist, rfl⟩

/-- A project is opened if its settings can be loaded and merged and its directory, if it has one, is ready. -/
theorem exists_openStored_of_merged {store : DirectoryStore} {place : Option Path} {stored : List (Category × Json)}
    {merged : Project DirectoryStore} (hload : ((setDirectory { store } place).loadStored w).1 = .ok stored)
    (hmerge : mergeValues (setDirectory { store } place) stored = (.ok (), merged))
    (hstore : merged.store = { directory := merged.directory })
    (hready : ∀ directory, merged.directory = some directory → ∃ here there, IsReady directory w.files here there)
    (user : UserScope) (runtime : List Path) :
  ∃ p w', openStored store place user runtime w = (.ok p, w') ∧
    p.settings = merged.settings.extended w.files (!stored.isEmpty) user runtime
  := by
  obtain ⟨result, log, hread⟩ := exists_loadCategories (setDirectory { store } place) w Category.all
  rw [loadStored, hread] at hload
  obtain rfl : result = .ok stored := hload
  have hscope := ScopeSettings.fst_merge w.files (!stored.isEmpty) merged.scopeSettings user runtime
  generalize htracked : ScopeSettings.merge w.files (!stored.isEmpty) merged.scopeSettings user runtime = tracked at hscope
  obtain ⟨scope, lines⟩ := tracked
  obtain ⟨p, w', hpersist, hp⟩ := persist_loadScope (w := { w with log := log ++ lines }) hstore hready scope
  refine ⟨p, w', ?_, hp.trans ?_⟩
  · simp only [openStored, loadStored, hread, hmerge, htracked, hpersist]
  · obtain rfl : scope = _ := hscope
    rfl

/-- A project that is opened in a directory that holds settings has them, with what the user adds. -/
theorem exists_openStored_of_savedIn {settings : Settings} (h : SavedIn settings directory w.files) (s : DirectoryStore)
    (user : UserScope) (runtime : List Path) :
  ∃ p w', openStored s (some directory) user runtime w = (.ok p, w') ∧
    p.settings = (settings.merged directory).extended w.files true user runtime
  := by
  obtain ⟨here, there, hready, hheld⟩ := h
  have hload := loadCategories_of_load (p := setDirectory { store := s } (some directory))
    (fun category => load_of_heldIn hready.leads hheld false category) Category.all
  have hmerge := mergeValues_stored (p := setDirectory { store := s } (some directory)) rfl settings
  apply exists_openStored_of_merged (congrArg Prod.fst hload) hmerge rfl
  rintro _ ⟨⟩
  exact ⟨here, there, hready⟩

/-- A project that is opened in a directory that holds settings has them, whatever the search path of the
environment, if the user adds nothing. -/
theorem openStored_of_savedIn {settings : Settings} (h : SavedIn settings directory w.files) (s : DirectoryStore)
    {user : UserScope} (hmodules : user.moduleNames = []) (hfiles : user.files = [])
    (hpath : user.addToSearchPath = []) (runtime : List Path) :
  ∃ p w', openStored s (some directory) user runtime w = (.ok p, w') ∧
    p.settings = settings.reopened directory
  := by
  obtain ⟨p, w', hopened, hsettings⟩ := exists_openStored_of_savedIn h s user runtime
  exact ⟨p, w', hopened,
    hsettings.trans (extended_of_no_additions settings directory w.files hmodules hfiles hpath runtime)⟩

end Project

/-! ### Settings as values -/

section

variable {σ : Type}

theorem isFaithful_projectSettings :
  IsFaithful ProjectSettings 1
  := by
  have hpath : IsFaithful (Option Path) 0 := IsFaithful.path.option nofun
  have hfields (s : ProjectSettings) : encode s = .object [("project_directory", encode s.directory)] := rfl
  constructor
  · intro s
    have hdirectory := hpath.decode_encode s.directory
    rw [hfields]
    change (RecordReader.start "ProjectSettings" _ false false _ >>= _) = _
    simp [RecordReader.start, RecordReader.checkFields, RecordReader.optional, RecordReader.finish, Codec.ok_bind,
      check_eq_ok hdirectory, hdirectory]
  · intro s
    rw [hfields]
    exact .object (by simp [hpath.isPlain]) rfl

/-- The settings of a category. -/
def Settings.content (s : Settings) : Category → Replacement
  | .projectSettings => .directory s.projectSettings.directory
  | .sysPath => .sysPath s.sysPath
  | .bookmarks => .bookmarks s.bookmarks
  | .modules => .modules s.modules
  | .files => .files s.files
  | .scripts => .scripts s.scripts

/-- Settings with those of one category replaced. -/
def Settings.holding (s : Settings) : Replacement → Settings
  | .directory new => { s with projectSettings := { directory := new } }
  | .sysPath new => { s with sysPath := new }
  | .bookmarks new => { s with bookmarks := new }
  | .modules new => { s with modules := new }
  | .files new => { s with files := new }
  | .scripts new => { s with scripts := new }

namespace Settings

/-- What was put into settings is in them. -/
theorem content_holding (s : Settings) (new : Replacement) :
  (s.holding new).content new.category = new
  := by
  cases new <;> rfl

/-- The value of a category decodes to the settings it was made from. -/
theorem ofValue_value (s : Settings) (category : Category) :
  Replacement.ofValue (s.value category) category = .ok (s.content category)
  := by
  have hproject := Category.projectSettings.decodeValue_encode isFaithful_projectSettings s.projectSettings
  cases category with
  | projectSettings => exact congrArg (Except.map _) hproject
  | sysPath => exact congrArg (Except.map _) (Category.sysPath.decodeValue_encode isFaithful_paths s.sysPath)
  | bookmarks => exact congrArg (Except.map _) (Category.bookmarks.decodeValue_encode isFaithful_bookmarks s.bookmarks)
  | modules => exact congrArg (Except.map _) (Category.modules.decodeValue_encode isFaithful_names s.modules)
  | files => exact congrArg (Except.map _) (Category.files.decodeValue_encode isFaithful_paths s.files)
  | scripts => exact congrArg (Except.map _) (Category.scripts.decodeValue_encode isFaithful_paths s.scripts)

end Settings

namespace Project

variable {δ : Type}

/-- A project that is moved to where it is stays as it is. -/
theorem setDirectory_self [SettingsStore δ] (p : Project δ) :
  p.setDirectory p.directory = p
  :=
  if_pos BEq.rfl

/-- Settings are replaced by themselves without a change; only a directory is always reported as changed.  The files of
the tracked nodes are searched afterwards if modules or scripts were replaced. -/
theorem replace_content [SettingsStore δ] (p : Project δ) (category : Category) (w : Workspace σ) :
  p.replace w (p.settings.content category) = ({ changed := decide (category = .projectSettings) }, p,
    if category = .modules ∨ category = .scripts then p.refreshScope w else w)
  := by
  have hsame {α : Type} [BEq α] [ReflBEq α] (a : α) : (a != a) = false := by
    rw [bne, BEq.rfl]
    rfl
  cases category with
  | projectSettings => exact congrArg (({ changed := true } : SettingsChange), ·, w) (setDirectory_self p)
  | sysPath => exact if_pos BEq.rfl
  | bookmarks => exact congrArg (fun changed => (({ changed } : SettingsChange), p, w)) (hsame p.settings.bookmarks)
  | modules => exact setModules_self p w
  | files => exact congrArg (fun changed => (({ changed } : SettingsChange), p, w)) (hsame p.settings.files)
  | scripts => exact setScripts_self p w

/-- The value of every category decodes to the settings, and to replace them by it changes neither them nor any node.
A value that is accepted decodes to settings whose own value decodes to the same. -/
theorem value_survives [SettingsStore δ] (p : Project δ) (w : Workspace σ) :
  (∀ category, Replacement.ofValue (p.value category false) category = .ok (p.settings.content category)) ∧
  (∀ category, p.setSettings category (p.value category false) w =
    .ok ({ changed := decide (category = .projectSettings) }, p,
      if category = .modules ∨ category = .scripts then p.refreshScope w else w)) ∧
  ∀ category value new, Replacement.ofValue value category = .ok new →
    Replacement.ofValue (Project.value { p with settings := p.settings.holding new } category false) category = .ok new
  := by
  refine ⟨p.settings.ofValue_value, fun category => ?_, fun category value new h => ?_⟩
  · rw [setSettings_eq, value, if_neg Bool.false_ne_true, Settings.ofValue_value]
    exact congrArg Except.ok (p.replace_content category w)
  · obtain rfl := Replacement.category_of_ofValue h
    refine (Settings.ofValue_value _ _).trans ?_
    rw [Settings.content_holding]

/-- A walk with an element given as an array, and one given as an object that has an array and an object without
fields for locations, an object for the role, no path and a field too many. -/
def strayBookmarks : Json :=
  .array [.array [
    .array [.text "f", .text "function", .text "m", .text "child", .text "/tmp/w/m.py",
      .array [.null, .object [], .object []], .array [.ofNat 1, .null], .object [("column", .ofNat 4)]],
    .object [("call_position", .object [("end", .array [.null, .null]), ("start", .object [])]),
      ("end_position", .object []), ("kind", .text "class"), ("module", .text "m"), ("name", .text "C"),
      ("note", .bool true), ("role", .object [("parent", .null)]), ("start_position", .object [("line", .ofNat 2)])]]]

/-- The walk that they stand for. -/
def straightBookmarks : List Bookmark :=
  [[{ name := "f", kind := "function", module := "m", role := .child, path := some ⟨"/tmp/w/m.py"⟩
      callPosition := .unknown, start := ⟨some 1, none⟩, stop := ⟨none, some 4⟩ },
    { name := "C", kind := "class", module := "m", role := .parent, path := none
      callPosition := .unknown, start := ⟨some 2, none⟩, stop := .unknown }]]

/-- A walk in another spelling is accepted, and shown in the usual one it is the same walk. -/
theorem value_survives_stray :
  Replacement.ofValue strayBookmarks .bookmarks = .ok (.bookmarks straightBookmarks) ∧
    Replacement.ofValue (Settings.value { bookmarks := straightBookmarks } .bookmarks) .bookmarks =
      .ok (.bookmarks straightBookmarks)
  := by
  have hstray : Replacement.ofValue strayBookmarks .bookmarks = .ok (.bookmarks straightBookmarks) := rfl
  have hsurvives := value_survives { store := ({} : MemoryStore) }
    { provider := Scripted.provider, analysis := {}, files := {}, config := {} }
  exact ⟨hstray, hsurvives.2.2 .bookmarks strayBookmarks _ hstray⟩

end Project

end

end CallGraph
