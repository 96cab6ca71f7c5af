import CallGraph.Proofs.Explorer.Operations
import CallGraph.Proofs.Json.Forms
import CallGraph.Proofs.Search.Recorded
import CallGraph.Provider.Scripted

/-!
# Operations that fail

A value whose form is not that of its category is refused, and only such a value is: storing the settings may fail too,
but with another error, unless a store decodes what it saves.  What is refused changes nothing, and the provider is not
asked.

An operation that fails because its settings cannot be stored is not undone: it leaves what it leaves where they
are stored in memory, but for the store and the files.  If it is carried out again, a category keeps the value
that it was given, whereas a bookmark is added a second time, and where one was deleted the next one is.
-/

namespace CallGraph

variable {σ δ : Type}

/-! ### Settings that are refused -/

/-- A value stands for settings of a category if it has their form. -/
theorem Replacement.succeeds_ofValue (value : Json) (category : Category) :
  Succeeds (ofValue value category) ↔ Json.Form.settings category value
  := by
  have hdecoded {α : Type} [Codec α] {form : Json.Form} (h : Codec.Reads α form) {f : α → Replacement} :
      Succeeds ((category.decodeValue value : Except SettingsError α).map f) ↔ form value := by
    rw [succeeds_map, ← h value, Category.decodeValue]
    cases (decode value : Except DecodeFault α) with
    | ok a => exact iff_of_true (succeeds_ok a) (succeeds_ok a)
    | error fault => exact iff_of_false (not_succeeds_error _) (not_succeeds_error _)
  have htexts := Codec.reads_list Codec.reads_string
  have hpaths := Codec.reads_list Codec.reads_path
  cases category with
  | projectSettings => exact hdecoded Codec.reads_projectSettings
  | bookmarks => exact hdecoded (Codec.reads_list (Codec.reads_list Codec.reads_element))
  | modules => exact hdecoded htexts
  | sysPath | files | scripts => exact hdecoded hpaths

/-- An error that says that a value could not be decoded. -/
def SettingsError.IsUndecodable (e : SettingsError) : Prop :=
  ∃ category fault, e = .undecodable category fault

/-- Stores that decode nothing when they save, and so never fail to save because of that. -/
class SettingsStore.SavesWithoutDecoding (δ : Type) [SettingsStore δ] : Prop where
  not_isUndecodable {store : δ} {files : FileTree} {category : Category} {value : Json} {e : SettingsError}
    (h : (save store files category value).1 = .error e) : ¬ e.IsUndecodable

namespace DirectoryStore

theorem not_isUndecodable_of_carryOut {act : FileTree → FileAction → Except FileError Unit × FileTree}
    {actions : List FileAction} {files : FileTree} {e : SettingsError}
    (h : (carryOut act actions files).1 = .error e) :
  ¬ e.IsUndecodable
  := by
  induction actions generalizing files with
  | nil => cases h
  | cons action actions ih =>
    rw [carryOut] at h
    split at h
    · exact ih h
    · cases h
      rintro ⟨category, fault, hundecodable⟩
      cases hundecodable

instance : SettingsStore.SavesWithoutDecoding DirectoryStore where
  not_isUndecodable {store files category value e} h := by
    change (store.saveWith FileTree.act files category value).1 = _ at h
    unfold saveWith at h
    split at h
    · cases h
    · dsimp only at h
      split at h
      case h_1 hprepared =>
        cases h
        exact not_isUndecodable_of_carryOut (congrArg Prod.fst hprepared)
      case h_2 => exact not_isUndecodable_of_carryOut h

end DirectoryStore

instance : SettingsStore.SavesWithoutDecoding MemoryStore where
  not_isUndecodable h := nomatch h

instance {ε : Type} [SettingsStore δ] [SettingsStore ε] [SettingsStore.SavesWithoutDecoding δ]
    [SettingsStore.SavesWithoutDecoding ε] : SettingsStore.SavesWithoutDecoding (δ ⊕ ε) where
  not_isUndecodable {store files category value e} h := by
    cases store with
    | inl store =>
      have hsave : (SettingsStore.save store files category value).1 = .error e := h
      exact SettingsStore.SavesWithoutDecoding.not_isUndecodable hsave
    | inr store =>
      have hsave : (SettingsStore.save store files category value).1 = .error e := h
      exact SettingsStore.SavesWithoutDecoding.not_isUndecodable hsave

open SettingsStore (SavesWithoutDecoding)

/-- Settings do not fail to be stored because something cannot be decoded. -/
theorem Project.not_isUndecodable_of_persistCategories [SettingsStore δ] [SavesWithoutDecoding δ] {p : Project δ}
    {w : Workspace σ} {categories : List Category} {e : SettingsError}
    (h : (p.persistCategories w categories).1 = .error e) :
  ¬ e.IsUndecodable
  := by
  induction categories generalizing p w with
  | nil => cases h
  | cons category rest ih =>
    rw [persistCategories] at h
    generalize hsave : SettingsStore.save p.store w.files category (p.value category true) = saved at h
    obtain ⟨result, store, files⟩ := saved
    cases result with
    | ok => exact ih h
    | error e' =>
      cases h
      exact SavesWithoutDecoding.not_isUndecodable (congrArg Prod.fst hsave)

namespace Explorer

/-- The explorer over a provider whose questions are noted. -/
def noted (x : Explorer σ δ) (asked : List Question) : Explorer (Noted σ) δ :=
  ⟨x.project, ⟨x.workspace.noted asked, x.navigation.frontier⟩⟩

variable [SettingsStore δ] [SavesWithoutDecoding δ]

/-- Settings that are applied are either decoded, and may then fail to be stored, or refused without a change. -/
theorem decoded_or_refused (x : Explorer σ δ) (category : Category) (value : Json) :
  (Json.Form.settings category value ∧ ∀ e, (x.applySettings category value).1 = .error e → ¬ e.IsUndecodable) ∨
    (¬ Json.Form.settings category value ∧
      ∃ fault, x.applySettings category value = (.error (.undecodable category fault), x))
  := by
  rw [applySettings_eq, ← Replacement.succeeds_ofValue]
  cases h : Replacement.ofValue value category with
  | error e =>
    obtain ⟨fault, rfl⟩ := Replacement.exists_of_ofValue_eq_error h
    exact .inr ⟨not_succeeds_error _, fault, rfl⟩
  | ok new =>
    refine .inl ⟨succeeds_ok new, fun e he => ?_⟩
    dsimp only at he
    cases hpersist : (x.replaced new).persist.1 with
    | ok =>
      rw [hpersist] at he
      cases he
    | error e' =>
      rw [hpersist] at he
      cases he
      have hstored : ((x.replaced new).project.persistCategories (x.replaced new).workspace Category.all).1 =
          .error e := hpersist
      exact Project.not_isUndecodable_of_persistCategories hstored

/-- Settings are refused, as they cannot be decoded, if and only if the value does not have the form of settings of the
category.  Then the explorer stays what it was, and its provider is not asked anything. -/
theorem applySettings_refuses (x : Explorer σ δ) (category : Category) (value : Json) :
  ((∃ c fault, (x.applySettings category value).1 = .error (.undecodable c fault)) ↔
      ¬ Json.Form.settings category value) ∧
    (¬ Json.Form.settings category value →
      (∃ fault, x.applySettings category value = (.error (.undecodable category fault), x)) ∧
      ((x.noted []).applySettings category value).2.workspace.analysis.asked = [])
  := by
  have hrefused (hform : ¬ Json.Form.settings category value) {τ : Type} (y : Explorer τ δ) :
      ∃ fault, y.applySettings category value = (.error (.undecodable category fault), y) := by
    rcases y.decoded_or_refused category value with ⟨hform', _⟩ | ⟨_, hrefused⟩
    · exact absurd hform' hform
    · exact hrefused
  refine ⟨⟨?_, fun hform => ?_⟩, fun hform => ⟨hrefused hform x, ?_⟩⟩
  · rintro ⟨c, fault, hresult⟩ hform
    rcases x.decoded_or_refused category value with ⟨_, hdecoded⟩ | ⟨hform', _⟩
    · exact hdecoded _ hresult ⟨c, fault, rfl⟩
    · exact hform' hform
  · obtain ⟨fault, h⟩ := hrefused hform x
    exact ⟨category, fault, congrArg Prod.fst h⟩
  · obtain ⟨fault, h⟩ := hrefused hform (x.noted [])
    rw [h]
    rfl

/-- An explorer that has a module, which is kept in memory. -/
def equipped : Explorer Scripted (DirectoryStore ⊕ MemoryStore) :=
  (Explorer.applySettings (.ofProject { store := .inr {} }
    { provider := Scripted.provider
      analysis := ({} : Scripted).addModule "m" ⟨"m", "module", "m", some ⟨"/m.py"⟩, .known 1 0, .unknown⟩
      files := {}
      config := {} }) .modules (.array [.text "m"])).2

/-- A saved walk whose only element has no start that is known to be one. -/
def malformed : Json :=
  .array [.array [.object [("name", .text "f"), ("start_position", .object [("line", .text "one")])]]]

/-- The walk is refused, and the module stays. -/
theorem applySettings_refuses_malformed :
  ¬ Json.Form.settings .bookmarks malformed ∧
    (∃ fault, equipped.applySettings .bookmarks malformed = (.error (.undecodable .bookmarks fault), equipped)) ∧
    ((equipped.noted []).applySettings .bookmarks malformed).2.workspace.analysis.asked = [] ∧
    (equipped.applySettings .bookmarks malformed).2.project.settings.modules = ["m"]
  := by
  have hform : ¬ Json.Form.settings .bookmarks malformed := by
    rw [← Replacement.succeeds_ofValue]
    exact not_succeeds_error _
  obtain ⟨fault, hrefused⟩ := ((applySettings_refuses equipped .bookmarks malformed).2 hform).1
  refine ⟨hform, ⟨fault, hrefused⟩, ((applySettings_refuses equipped .bookmarks malformed).2 hform).2, ?_⟩
  rw [hrefused]
  rfl

end Explorer

/-! ### Settings that are not saved -/

/-- What an operation makes of settings that it left, for the walk to where it finds the explorer. -/
def Operation.again (walk : Bookmark) (s : Settings) : Operation → Settings
  | .apply _ _ => s
  | .addBookmark => { s with bookmarks := s.bookmarks ++ [walk] }
  | .deleteBookmark index => { s with bookmarks := s.bookmarks.eraseIdx index }

namespace Explorer

variable {x y : Explorer σ δ} {op : Operation}

/-- The same modules, scripts and columns, and settings in which an operation was repeated. -/
structure Repeats (op : Operation) (x y : Explorer σ δ) : Prop where
  settings : y.project.settings = op.again x.navigation.frontier.elementPath x.project.settings
  modules : y.project.modules = x.project.modules
  scripts : y.project.scripts = x.project.scripts
  frontier : y.navigation.frontier = x.navigation.frontier

/-- Columns that show modules or scripts search the files that they searched. -/
theorem scope_showChange (x : Explorer σ δ) {category : Category} (change : SettingsChange) (walk : List Element)
    (hcategory : category = .modules ∨ category = .scripts) :
  (x.showChange category change walk).workspace.scope = x.workspace.scope
  := by
  unfold showChange
  split
  · rcases hcategory with rfl | rfl
    · rfl
    · rfl
  · rfl

variable [SettingsStore δ]

/-- Storing settings changes neither them nor the columns. -/
theorem Repeats.persist (h : Repeats op x y) :
  Repeats op x y.persist.2
  := by
  obtain ⟨result, store, files, hpersist⟩ := y.exists_persist
  rw [hpersist]
  exact ⟨h.settings, h.modules, h.scripts, h.frontier⟩

/-- What was replaced is not changed by the same replacement. -/
theorem replaced_again (x : Explorer σ δ) (new : Replacement) (store : δ) (files : FileTree) :
  ((x.replaced new).keeping store files).replaced new = (x.replaced new).keeping store files
  := by
  have hproject : (x.replaced new).project = (x.project.replace x.workspace new).2.1 :=
    project_showChange _ _ _ _
  have hscope : new.category = .modules ∨ new.category = .scripts →
      ((x.replaced new).keeping store files).workspace.scope = (x.project.replace x.workspace new).2.2.scope :=
    fun hcategory => scope_showChange _ _ _ hcategory
  obtain ⟨change, hagain, hunchanged⟩ := x.project.replace_again x.workspace new store hscope
  rw [← hproject] at hagain
  generalize x.replaced new = y at hagain
  unfold replaced
  have hagain : (y.keeping store files).project.replace (y.keeping store files).workspace new = _ := hagain
  rw [hagain]
  exact showChange_eq_self _ _ hunchanged

/-- An operation that is carried out again repeats itself. -/
theorem repeats_operate (h : x.prepare op = some y) (store : δ) (files : FileTree) :
  Repeats op (y.keeping store files) ((y.keeping store files).operate op).2
  := by
  cases op with
  | apply category value =>
    rw [prepare] at h
    cases hnew : Replacement.ofValue value category with
    | error e =>
      rw [hnew] at h
      cases h
    | ok new =>
      rw [hnew] at h
      cases h
      have hagain : ((x.replaced new).keeping store files).prepare (.apply category value) =
          some ((x.replaced new).keeping store files) := by
        rw [prepare, hnew]
        exact congrArg some (replaced_again x new store files)
      rw [operate_of_prepare hagain]
      apply Repeats.persist
      exact ⟨rfl, rfl, rfl, rfl⟩
  | addBookmark =>
    rw [prepare] at h
    split at h
    case isTrue => cases h
    case isFalse hwalk =>
      cases h
      have hagain : (keeping { x with project := x.project.addBookmark x.navigation.frontier.elementPath } store
          files).prepare .addBookmark = some _ :=
        if_neg hwalk
      rw [operate_of_prepare hagain]
      apply Repeats.persist
      exact ⟨rfl, rfl, rfl, rfl⟩
  | deleteBookmark index =>
    cases hagain : (y.keeping store files).prepare (.deleteBookmark index) with
    | none =>
      obtain ⟨⟨log, hlogged⟩, -⟩ := operate_of_prepare_eq_none hagain
      have hindex : y.bookmarks.length ≤ index := by
        rw [prepare] at hagain
        split at hagain
        case isTrue => cases hagain
        case isFalse hlt => exact Nat.le_of_not_lt hlt
      rw [hlogged]
      refine ⟨?_, rfl, rfl, rfl⟩
      change y.project.settings = { y.project.settings with bookmarks := y.bookmarks.eraseIdx index }
      rw [List.eraseIdx_of_length_le hindex]
      rfl
    | some z =>
      rw [operate_of_prepare hagain]
      apply Repeats.persist
      rw [prepare] at hagain
      split at hagain
      · cases hagain
        exact ⟨rfl, rfl, rfl, rfl⟩
      · cases hagain

/-- An operation that fails though its value can be decoded, so as its settings cannot be stored, stays in force,
whatever the store, and repeats itself if it is carried out again. -/
theorem operate_of_unsaved (hdecoded : op.IsDecoded) {e : SettingsError} (h : (x.operate op).1 = .error e) :
  (∃ saved store files, x.inMemory.operate op = (.ok (), saved) ∧ (x.operate op).2 = saved.keeping store files) ∧
    Repeats op (x.operate op).2 ((x.operate op).2.operate op).2
  := by
  cases hprepare : x.prepare op with
  | none => cases h.symm.trans ((operate_of_prepare_eq_none hprepare).2 hdecoded)
  | some y =>
    have hmemory : x.inMemory.prepare op = some y.inMemory := by
      rw [prepare_inMemory, hprepare]
      rfl
    obtain ⟨store, files, hsaved⟩ := y.exists_persist_inMemory
    obtain ⟨result, store', files', hpersist⟩ := y.exists_persist
    rw [operate_of_prepare hprepare, hpersist]
    constructor
    · refine ⟨y.keeping store files, store', files', ?_, rfl⟩
      rw [operate_of_prepare hmemory, hsaved]
    · exact repeats_operate hprepare store' files'

/-- An explorer whose project directory cannot be made, as a file stands above it. -/
def blocked : Explorer Scripted DirectoryStore :=
  .ofProject { store := { directory := some ⟨"/w/project"⟩ } }
    { provider := Scripted.provider
      analysis := ({} : Scripted).addModule "m" ⟨"m", "module", "m", some ⟨"/m.py"⟩, .known 1 0, .unknown⟩
      files := { entries := [(["w"], .file .empty 0)] }
      config := {} }

/-- The tracking of a module. -/
def tracking : Operation :=
  .apply .modules (.array [.text "m"])

/-- A module that cannot be stored is tracked. -/
theorem operate_blocked :
  (∃ saved store files, blocked.inMemory.operate tracking = (.ok (), saved) ∧
    (blocked.operate tracking).2 = saved.keeping store files) ∧
    Repeats tracking (blocked.operate tracking).2 ((blocked.operate tracking).2.operate tracking).2
  := by
  have hunsaved : (blocked.operate tracking).1 = .error (.unsaved ⟨"/w/project/backup"⟩ .notDirectory) := rfl
  exact operate_of_unsaved ⟨.modules ["m"], rfl⟩ hunsaved

/-- The settings, the modules and column 0 are not what they were before an operation that failed. -/
theorem not_undone_blocked :
  (blocked.operate tracking).1 = .error (.unsaved ⟨"/w/project/backup"⟩ .notDirectory) ∧
    blocked.project.settings.modules = [] ∧ (blocked.operate tracking).2.project.settings.modules = ["m"] ∧
    blocked.project.modules.nodes.keys = [] ∧ (blocked.operate tracking).2.project.modules.nodes.keys = ["m"] ∧
    blocked.navigation.frontier.columns.map (·.nodes.length) = [0] ∧
    (blocked.operate tracking).2.navigation.frontier.columns.map (·.nodes.length) = [1]
  :=
  ⟨rfl, by decide⟩

end Explorer

end CallGraph
