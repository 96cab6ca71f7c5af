import CallGraph.Proofs.Explorer.Unsaved
import CallGraph.Proofs.Frontier.Roots
import CallGraph.Proofs.Settings.Reopening
import CallGraph.Provider.Scripted

/-!
# Sessions

A session opens a project whose settings are kept in files, and then carries out operations on them.  If the last
one stored the settings, a project that is opened in the same directory has them: each list without its repeats, and
the search path without empty entries.
-/

namespace CallGraph

open DirectoryStore (HasRoom)

variable {σ τ : Type}

namespace Project

variable {p : Project DirectoryStore} {w : Workspace σ}

/-- A project is kept whatever settings are replaced. -/
theorem IsKept.replace (h : p.IsKept w.files) (new : Replacement) :
  (p.replace w new).2.1.IsKept w.files ∧ (p.replace w new).2.2.files = w.files
  := by
  cases new with
  | directory new => exact ⟨(h.setDirectory new).1, rfl⟩
  | sysPath new =>
    rw [Project.replace, setSearchPath]
    split
    · exact ⟨h, rfl⟩
    · obtain ⟨hstore, hsettings, hfiles⟩ := settings_rebuild
        { p with settings := { p.settings with sysPath := new } } w
      refine ⟨h.congr hstore ?_ rfl, hfiles⟩
      exact congrArg (·.projectSettings.directory) hsettings
  | modules new => exact ⟨h.congr rfl rfl rfl, Workspace.files_run _ w⟩
  | scripts new => exact ⟨h.congr rfl rfl rfl, Workspace.files_run _ w⟩
  | bookmarks new => exact ⟨h.congr rfl rfl rfl, rfl⟩
  | files new => exact ⟨h.congr rfl rfl rfl, rfl⟩

end Project

namespace Explorer

/-- Bringing columns in line leaves the files alone. -/
theorem files_showChange {δ : Type} (x : Explorer σ δ) (category : Category) (change : SettingsChange)
    (walk : List Element) :
  (x.showChange category change walk).workspace.files = x.workspace.files
  := by
  have hrestore : (x.restore walk).2.workspace.files = x.workspace.files :=
    (Navigation.GoesOn.openBookmark (x.navigation.setRoots x.project.rootNodes) walk).workspace.files
  unfold showChange
  split
  · cases category with
    | sysPath =>
      dsimp only
      split
      · exact hrestore
      · exact hrestore
    | _ => rfl
  · rfl

variable {x y : Explorer σ DirectoryStore} {op : Operation}

/-- What an operation prepares is kept as the explorer is. -/
theorem isKept_of_prepare (h : x.project.IsKept x.workspace.files) (hprepare : x.prepare op = some y) :
  y.project.IsKept y.workspace.files
  := by
  cases op with
  | apply category value =>
    rw [prepare] at hprepare
    cases hnew : Replacement.ofValue value category with
    | error e =>
      rw [hnew] at hprepare
      cases hprepare
    | ok new =>
      rw [hnew] at hprepare
      cases hprepare
      obtain ⟨hkept, hfiles⟩ := h.replace new
      rw [replaced, project_showChange, files_showChange]
      exact hkept.congr rfl rfl hfiles
  | addBookmark =>
    rw [prepare] at hprepare
    split at hprepare
    · cases hprepare
    · cases hprepare
      exact h.congr rfl rfl rfl
  | deleteBookmark index =>
    rw [prepare] at hprepare
    split at hprepare
    · cases hprepare
      exact h.congr rfl rfl rfl
    · cases hprepare

/-- Whether the settings are stored after an operation, if it is known whether they were before. -/
def stores (x : Explorer σ DirectoryStore) (op : Operation) (saved : Bool) : Bool :=
  if (x.prepare op).isSome then (x.operate op).1.isOk else saved

/-- The explorers of a session, and whether the last operation that had settings to store did store them.  Whenever a
directory is to be made for them, there is room.  Besides the operations anything may happen that leaves settings and
files alone. -/
inductive Session (room : Path → FileTree → Prop) : Explorer σ DirectoryStore → Bool → Prop where
  | opened {e place : Option Path} {user : UserScope} {runtime : List Path} {p : Project DirectoryStore}
      {w w' : Workspace σ} (sound : w.files.IsSound)
      (opened : Project.openStored ({ directory := e } : DirectoryStore) place user runtime w = (.ok p, w'))
      (roomy : ∀ directory ∈ p.store.directory, room directory w.files) :
      Session room (.ofProject p w') true
  | operated {x : Explorer σ DirectoryStore} {saved : Bool} (session : Session room x saved) (op : Operation)
      (roomy : ∀ y ∈ x.prepare op, ∀ directory ∈ y.project.store.toMake, room directory y.workspace.files) :
      Session room (x.operate op).2 (x.stores op saved)
  | aside {x y : Explorer σ DirectoryStore} {saved : Bool} (session : Session room x saved)
      (settings : y.project.settings = x.project.settings) (store : y.project.store = x.project.store)
      (files : y.workspace.files = x.workspace.files) :
      Session room y saved

namespace Session

variable {x : Explorer σ DirectoryStore} {saved : Bool}

/-- The settings of a session are kept in files, and are in those of the directory if they are stored. -/
theorem isKept (h : Session HasRoom x saved) :
  x.project.IsKept x.workspace.files ∧
    (saved = true → ∀ directory, x.project.directory = some directory →
      Project.SavedIn x.project.settings directory x.workspace.files)
  := by
  induction h with
  | opened sound opened roomy =>
    obtain ⟨hkept, hsaved⟩ := Project.isKept_of_openStored sound opened roomy
    exact ⟨hkept.congr rfl rfl rfl, fun _ => hsaved⟩
  | @aside x y saved session settings store files ih =>
    obtain ⟨hkept, hsaved⟩ := ih
    have hdirectory : y.project.directory = x.project.directory := congrArg (·.projectSettings.directory) settings
    refine ⟨hkept.congr store hdirectory files, fun h directory hy => ?_⟩
    rw [settings, files]
    exact hsaved h directory (hdirectory.symm.trans hy)
  | @operated x saved session op roomy ih =>
    obtain ⟨hkept, hsaved⟩ := ih
    rw [stores]
    cases hprepare : x.prepare op with
    | none =>
      obtain ⟨⟨log, hlogged⟩, -⟩ := operate_of_prepare_eq_none hprepare
      rw [hlogged]
      exact ⟨hkept, hsaved⟩
    | some y =>
      obtain ⟨result, store, t, hpersist, hkept', hsaved'⟩ :=
        (isKept_of_prepare hkept hprepare).persist (roomy y hprepare)
      rw [operate_of_prepare hprepare, persist, hpersist]
      refine ⟨hkept', fun h => hsaved' ?_⟩
      cases result with
      | ok => rfl
      | error e => cases h

/-- What is stored in a session is there when the project is opened again, whatever the search path of the
environment, if the user adds nothing. -/
theorem exists_openStored (h : Session HasRoom x true) {directory : Path}
    (hdirectory : x.project.directory = some directory) {w : Workspace τ} (hw : w.files = x.workspace.files)
    (s : DirectoryStore) {user : UserScope} (hmodules : user.moduleNames = []) (hfiles : user.files = [])
    (hpath : user.addToSearchPath = []) (runtime : List Path) :
  ∃ p w', Project.openStored s (some directory) user runtime w = (.ok p, w') ∧
    p.settings = x.project.settings.reopened directory
  := by
  have hsaved := h.isKept.2 rfl directory hdirectory
  rw [← hw] at hsaved
  exact Project.openStored_of_savedIn hsaved s hmodules hfiles hpath runtime

/-- An operation on stored settings leaves them stored if it succeeds. -/
theorem operated_of_isOk {room : Path → FileTree → Prop} {op : Operation} (h : Session room x true)
    (hroom : ∀ y ∈ x.prepare op, ∀ directory ∈ y.project.store.toMake, room directory y.workspace.files)
    (hok : (x.operate op).1.isOk = true) :
  Session room (x.operate op).2 true
  := by
  have hstores : x.stores op true = true := by
    rw [stores, hok]
    exact ite_self true
  exact hstores ▸ h.operated op hroom

/-! ### Concrete sessions -/

/-- The result of opening a project in a directory of some files. -/
def opening (files : FileTree) (directory : Path) : Except SettingsError
    (Project DirectoryStore) × Workspace Scripted :=
  Project.openStored ({} : DirectoryStore) (some directory) {} []
    { provider := Scripted.provider, analysis := {}, files, config := {} }

/-- The explorer of a project that is opened without files. -/
def started (directory : Path) : Explorer Scripted DirectoryStore :=
  .ofProject ((opening {} directory).1.toOption.getD { store := {} }) (opening {} directory).2

/-- What is started in a directory, after a module is tracked twice. -/
def tracked (directory : Path) : Except SettingsError Unit × Explorer Scripted DirectoryStore :=
  (started directory).operate (.apply .modules (.array [.text "m", .text "m"]))

/-- What is tracked in a directory, after the project has moved to another one. -/
def moved (directory : Path) : Except SettingsError Unit × Explorer Scripted DirectoryStore :=
  (tracked directory).2.operate (.apply .projectSettings (.object [("project_directory", .text "/p")]))

theorem session_started {room : Path → FileTree → Prop} {directory : Path}
    (hok : (opening {} directory).1.isOk = true)
    (hroom : ∀ place ∈ (started directory).project.store.directory, room place {}) :
  Session room (started directory) true
  := by
  have hopened : opening {} directory = ((opening {} directory).1, (opening {} directory).2) := rfl
  unfold started at hroom ⊢
  cases hresult : (opening {} directory).1 with
  | error e =>
    rw [hresult] at hok
    cases hok
  | ok p =>
    rw [hresult] at hopened hroom
    exact .opened (FileTree.isSound_of_entries (List.forall_mem_nil _) rfl (List.forall_mem_nil _)) hopened hroom

/-- A project is opened again with the module that was tracked, once. -/
theorem exists_openStored_tracked :
  ∃ p w', opening (tracked ⟨"/p"⟩).2.workspace.files ⟨"/p"⟩ = (.ok p, w') ∧ p.settings.modules = ["m"]
  := by
  have hspelled (place : Option Path) (spelling : String) (h : place.map (·.spelling) = some spelling) :
      place = some ⟨spelling⟩ := by
    cases place with
    | none => cases h
    | some place =>
      cases h
      rfl
  obtain ⟨hopened, hroom, htoMake, htracked, hmodules, hplace⟩ : (opening {} ⟨"/p"⟩).1.isOk = true ∧
      (∀ place ∈ (started ⟨"/p"⟩).project.store.directory, HasRoom place {}) ∧
      (∀ y ∈ (started ⟨"/p"⟩).prepare (.apply .modules (.array [.text "m", .text "m"])),
        y.project.store.toMake.isNone = true) ∧
      (tracked ⟨"/p"⟩).1.isOk = true ∧
      (tracked ⟨"/p"⟩).2.project.settings.modules = ["m", "m"] ∧
      (tracked ⟨"/p"⟩).2.project.directory.map (·.spelling) = some "/p" := by
    decide +kernel
  have hstarted : Session HasRoom (started ⟨"/p"⟩) true := session_started hopened hroom
  have hplace : (tracked ⟨"/p"⟩).2.project.directory = some ⟨"/p"⟩ := hspelled _ _ hplace
  have htracking : Session HasRoom (tracked ⟨"/p"⟩).2 true := by
    unfold tracked at htracked ⊢
    refine hstarted.operated_of_isOk (fun y hy place hplace => ?_) htracked
    rw [Option.isNone_iff_eq_none.mp (htoMake y hy)] at hplace
    cases hplace
  have huser : UserScope.moduleNames {} = [] := rfl
  obtain ⟨p, w', hreopened, hsettings⟩ := htracking.exists_openStored hplace
    (w := { provider := Scripted.provider, analysis := {}, files := (tracked ⟨"/p"⟩).2.workspace.files, config := {} })
    rfl {} huser rfl rfl []
  refine ⟨p, w', hreopened, ?_⟩
  have hdistinct : p.settings.modules = distinct (tracked ⟨"/p"⟩).2.project.settings.modules :=
    congrArg Settings.modules hsettings
  rw [hdistinct, hmodules]
  rfl

/-- Where the directory was itself under the name of a settings' file, the project cannot be opened again. -/
theorem not_openStored_moved :
  Session (fun _ _ => True) (moved ⟨"/p/modules.json"⟩).2 true ∧
    (moved ⟨"/p/modules.json"⟩).2.project.directory.map (·.spelling) = some "/p" ∧
    (opening (moved ⟨"/p/modules.json"⟩).2.workspace.files ⟨"/p"⟩).1.isOk = false
  := by
  obtain ⟨hopened, htracked, hmoved, hdirectory, hfailed⟩ : (opening {} ⟨"/p/modules.json"⟩).1.isOk = true ∧
      (tracked ⟨"/p/modules.json"⟩).1.isOk = true ∧ (moved ⟨"/p/modules.json"⟩).1.isOk = true ∧
      (moved ⟨"/p/modules.json"⟩).2.project.directory.map (·.spelling) = some "/p" ∧
      (opening (moved ⟨"/p/modules.json"⟩).2.workspace.files ⟨"/p"⟩).1.isOk = false := by
    decide +kernel
  refine ⟨?_, hdirectory, hfailed⟩
  have hstarted : Session (fun _ _ => True) (started ⟨"/p/modules.json"⟩) true :=
    session_started hopened fun _ _ => trivial
  unfold tracked at htracked
  have htracking := hstarted.operated_of_isOk (fun _ _ _ _ => trivial) htracked
  unfold moved tracked at hmoved ⊢
  exact htracking.operated_of_isOk (fun _ _ _ _ => trivial) hmoved

end Session

end Explorer

end CallGraph
