import CallGraph.Explorer
import CallGraph.Proofs.Settings.Replacement

/-!
# Operations on settings

An `Operation` replaces settings of an explorer, brings its columns in line and stores all settings.  It first
prepares the explorer, if there is something to store, and only then stores its settings, so whether they can be
stored decides on the result and on nothing else.
-/

namespace CallGraph

/-- What replaces settings and stores them. -/
inductive Operation where
  | apply (category : Category) (value : Json)
  | addBookmark
  | deleteBookmark (index : Nat)

/-- Whether the value that an operation applies, if any, can be decoded. -/
def Operation.IsDecoded : Operation → Prop
  | apply category value => ∃ new, Replacement.ofValue value category = .ok new
  | addBookmark => True
  | deleteBookmark _ => True

namespace Explorer

variable {σ δ ε : Type}

/-- Carries out an operation. -/
def operate [SettingsStore δ] (x : Explorer σ δ) : Operation → Except SettingsError Unit × Explorer σ δ
  | .apply category value => ((x.applySettings category value).1.map fun _ => (), (x.applySettings category value).2)
  | .addBookmark => (x.addBookmark.1.map fun _ => (), x.addBookmark.2)
  | .deleteBookmark index => ((x.deleteBookmark index).1.map fun _ => (), (x.deleteBookmark index).2)

/-- The explorer after a replacement, with its columns brought in line. -/
def replaced [SettingsStore δ] (x : Explorer σ δ) (new : Replacement) : Explorer σ δ :=
  let r := x.project.replace x.workspace new
  ({ x with project := r.2.1 }.withWorkspace r.2.2).showChange new.category r.1 x.navigation.frontier.elementPath

/-- What an operation makes of an explorer before it stores the settings, if it stores them. -/
def prepare [SettingsStore δ] (x : Explorer σ δ) : Operation → Option (Explorer σ δ)
  | .apply category value => (Replacement.ofValue value category).toOption.map x.replaced
  | .addBookmark =>
    if x.navigation.frontier.elementPath.isEmpty then none
    else some { x with project := x.project.addBookmark x.navigation.frontier.elementPath }
  | .deleteBookmark index =>
    if index < x.bookmarks.length then
      some { x with
        project := { x.project with
          settings := { x.project.settings with bookmarks := x.bookmarks.eraseIdx index } } }
    else none

/-- The explorer with another store and over other files. -/
def keeping (x : Explorer σ δ) (store : ε) (files : FileTree) : Explorer σ ε :=
  withWorkspace { x with project := { x.project with store } } { x.workspace with files }

/-- The explorer with a store in memory. -/
def inMemory (x : Explorer σ δ) : Explorer σ MemoryStore :=
  x.keeping {} x.workspace.files

/-! ### Columns and memory -/

/-- Bringing columns in line leaves the project alone. -/
theorem project_showChange (x : Explorer σ δ) (category : Category) (change : SettingsChange) (walk : List Element) :
  (x.showChange category change walk).project = x.project
  := by
  unfold showChange
  split
  · cases category with
    | sysPath =>
      dsimp only
      split <;> rfl
    | _ => rfl
  · rfl

/-- Columns stay as they are unless roots changed. -/
theorem showChange_eq_self (x : Explorer σ δ) {category : Category} {change : SettingsChange} (walk : List Element)
    (h : change.changed = true → category ≠ .sysPath ∧ category ≠ .modules ∧ category ≠ .scripts) :
  x.showChange category change walk = x
  := by
  unfold showChange
  split
  case isTrue hchanged =>
    obtain ⟨hpath, hmodules, hscripts⟩ := h hchanged
    cases category with
    | sysPath => contradiction
    | modules => contradiction
    | scripts => contradiction
    | _ => rfl
  case isFalse => rfl

/-- Columns are brought in line whatever the store. -/
theorem inMemory_showChange (x : Explorer σ δ) (category : Category) (change : SettingsChange) (walk : List Element) :
  x.inMemory.showChange category change walk = (x.showChange category change walk).inMemory
  := by
  unfold showChange
  split
  · cases category with
    | sysPath =>
      dsimp only
      change (if (x.restore walk).1.isExact = true then _ else _) =
        inMemory (if (x.restore walk).1.isExact = true then _ else _)
      split <;> rfl
    | _ => rfl
  · rfl

/-- In memory settings are stored. -/
theorem exists_persist_inMemory (x : Explorer σ δ) :
  ∃ (store : MemoryStore) (files : FileTree), x.inMemory.persist = (.ok (), x.keeping store files)
  := by
  obtain ⟨m, h⟩ := x.inMemory.project.exists_persistCategories_inMemory x.inMemory.workspace Category.all
  refine ⟨m, x.workspace.files, ?_⟩
  rw [persist, Project.persist, h]
  rfl

/-! ### What is prepared and what is stored -/

variable [SettingsStore δ] {x y : Explorer σ δ} {op : Operation}

/-- Settings are replaced by what a value stands for. -/
theorem applySettings_eq (x : Explorer σ δ) (category : Category) (value : Json) :
  x.applySettings category value = match Replacement.ofValue value category with
    | .error e => (.error e, x)
    | .ok new =>
      ((x.replaced new).persist.1.map fun () => (x.project.replace x.workspace new).1, (x.replaced new).persist.2)
  := by
  rw [applySettings, Project.setSettings_eq]
  cases h : Replacement.ofValue value category with
  | error e => rfl
  | ok new =>
    rw [← Replacement.category_of_ofValue h]
    rfl

/-- Storing settings changes the store and the files only. -/
theorem exists_persist (x : Explorer σ δ) :
  ∃ result store files, x.persist = (result, x.keeping store files)
  := by
  obtain ⟨result, store, files, h⟩ := x.project.exists_persistCategories x.workspace Category.all
  refine ⟨result, store, files, ?_⟩
  rw [persist, Project.persist, h]
  rfl

/-- An operation that prepares an explorer stores its settings. -/
theorem operate_of_prepare (h : x.prepare op = some y) :
  x.operate op = y.persist
  := by
  have hunit {α : Type} (r : Except SettingsError Unit) (a : α) : (r.map fun _ => a).map (fun _ => ()) = r := by
    cases r <;> rfl
  cases op with
  | apply category value =>
    rw [operate, applySettings_eq]
    rw [prepare] at h
    cases hnew : Replacement.ofValue value category with
    | error e =>
      rw [hnew] at h
      cases h
    | ok new =>
      rw [hnew] at h
      cases h
      exact Prod.ext (hunit _ _) rfl
  | addBookmark =>
    rw [operate, addBookmark]
    rw [prepare] at h
    by_cases hempty : x.navigation.frontier.elementPath.isEmpty = true
    · rw [if_pos hempty] at h
      cases h
    · rw [if_neg hempty] at h
      cases h
      rw [if_neg hempty]
      exact Prod.ext (hunit _ _) rfl
  | deleteBookmark index =>
    rw [operate, deleteBookmark]
    rw [prepare] at h
    by_cases hindex : index < x.bookmarks.length
    · rw [if_pos hindex] at h
      cases h
      have hbookmark : x.project.settings.bookmarks[index]? = some x.project.settings.bookmarks[index] :=
        List.getElem?_eq_getElem hindex
      rw [Project.removeBookmark, hbookmark]
      exact Prod.ext (hunit _ _) rfl
    · rw [if_neg hindex] at h
      cases h

/-- An operation that stores nothing changes nothing but the log, and does not fail if its value can be decoded. -/
theorem operate_of_prepare_eq_none (h : x.prepare op = none) :
  (∃ log, (x.operate op).2 = x.withWorkspace { x.workspace with log }) ∧ (op.IsDecoded → (x.operate op).1 = .ok ())
  := by
  cases op with
  | apply category value =>
    rw [operate, applySettings_eq]
    rw [prepare] at h
    cases hnew : Replacement.ofValue value category with
    | error e =>
      obtain ⟨fault, rfl⟩ := Replacement.exists_of_ofValue_eq_error hnew
      refine ⟨⟨x.workspace.log, rfl⟩, ?_⟩
      rintro ⟨new, hdecoded⟩
      cases hnew.symm.trans hdecoded
    | ok new =>
      rw [hnew] at h
      cases h
  | addBookmark =>
    rw [operate, addBookmark]
    rw [prepare] at h
    by_cases hempty : x.navigation.frontier.elementPath.isEmpty = true
    · rw [if_pos hempty]
      exact ⟨⟨_, rfl⟩, fun _ => rfl⟩
    · rw [if_neg hempty] at h
      cases h
  | deleteBookmark index =>
    rw [operate, deleteBookmark]
    rw [prepare] at h
    by_cases hindex : index < x.bookmarks.length
    · rw [if_pos hindex] at h
      cases h
    · have hbookmark : x.project.settings.bookmarks[index]? = none :=
        List.getElem?_eq_none (Nat.le_of_not_lt hindex)
      rw [Project.removeBookmark, hbookmark]
      exact ⟨⟨_, rfl⟩, fun _ => rfl⟩

/-- Where settings are kept does not count for what is prepared. -/
theorem prepare_inMemory (x : Explorer σ δ) (op : Operation) :
  x.inMemory.prepare op = (x.prepare op).map inMemory
  := by
  cases op with
  | apply category value =>
    have hreplaced (new : Replacement) : x.inMemory.replaced new = (x.replaced new).inMemory := by
      have hproject : x.inMemory.project.replace x.inMemory.workspace new = _ :=
        x.project.replace_inMemory {} x.workspace new
      unfold replaced
      dsimp only
      rw [hproject]
      generalize x.project.replace x.workspace new = r
      obtain ⟨change, p, w⟩ := r
      exact inMemory_showChange (withWorkspace { x with project := p } w) _ _ _
    rw [prepare, prepare]
    cases Replacement.ofValue value category with
    | error e => rfl
    | ok new => exact congrArg some (hreplaced new)
  | addBookmark =>
    rw [prepare, prepare]
    change (if x.navigation.frontier.elementPath.isEmpty = true then _ else _) = _
    split <;> rfl
  | deleteBookmark index =>
    rw [prepare, prepare]
    change (if index < x.bookmarks.length then _ else _) = _
    split <;> rfl

end Explorer

end CallGraph
