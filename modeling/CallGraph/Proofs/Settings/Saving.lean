import CallGraph.Proofs.Files.Replacing
import CallGraph.Settings.Project

/-!
# Saving settings in a directory

A directory is clear for settings if nothing but files stands under the names of their files, there and in the
backup beside them.  All settings can be saved in a clear directory, each to its own file, and they leave it
clear.  So saving fails only where the directory cannot be made, and then no file changes.
-/

namespace CallGraph

namespace DirectoryStore

open FileTree

/-! ### The files of the settings -/

theorem isFileName_fileName (category : Category) :
  IsFileName (fileName category)
  := by
  cases category <;> exact ⟨⟨by decide, by decide⟩, by decide⟩

theorem isFileName_backup :
  IsFileName "backup"
  :=
  ⟨⟨by decide, by decide⟩, by decide⟩

theorem fileName_injective :
  Function.Injective fileName
  := by
  intro a b h
  cases a <;> cases b <;> first | rfl | exact absurd h (by decide)

/-- What the file of a category holds for settings. -/
def content (value : Json) : String :=
  value.pretty ++ "\n"

/-- A path under which stands a file or nothing. -/
def HoldsFileAtMost (t : FileTree) (p : Path) : Prop :=
  ∀ place entry, t.find p false = .ok (.present place entry) → ∃ octets modified, entry = .file octets modified

/-- Under the names of the settings' files, in a directory and in its backup, stand files or nothing. -/
def IsClear (directory : Path) (t : FileTree) : Prop :=
  ∀ category, HoldsFileAtMost t (directory.child (fileName category)) ∧
    HoldsFileAtMost t ((backup directory).child (fileName category))

/-- A directory and its backup that are there and clear for settings, with their places. -/
structure IsReady (directory : Path) (t : FileTree) (here there : List String) : Prop where
  isSound : t.IsSound
  leads : t.Leads directory here
  backup : t.Leads (DirectoryStore.backup directory) there
  atMost : ∀ category, t.HoldsFileAtMost (here ++ [fileName category]) ∧
    t.HoldsFileAtMost (there ++ [fileName category])

variable {t t' : FileTree} {directory : Path} {here there : List String}

/-- Where a path leads, a file or nothing stands under a name if this is so behind the path. -/
theorem HoldsFileAtMost.of_leads {p : Path} {place : List String} {name : String}
    (h : HoldsFileAtMost t (p.child name)) (hname : IsFileName name) (hleads : t.Leads p place) :
  t.HoldsFileAtMost (place ++ [name])
  := by
  intro entry hentry
  have hfind : t.find (p.child name) false = .ok (t.foundAt (place ++ [name])) :=
    hleads.find_child hname.isEntryName hname.named nofun
  rw [foundAt, hentry] at hfind
  exact h _ _ hfind

/-- A directory with a backup is ready if it is clear. -/
theorem exists_isReady (hsound : t.IsSound) (hbackup : t.isDirectory (backup directory) = true)
    (hclear : IsClear directory t) :
  ∃ here there, IsReady directory t here there
  := by
  obtain ⟨there, hlookup⟩ := isDirectory_iff.mp hbackup
  obtain ⟨here, hleads⟩ := exists_leads_of_find isFileName_backup.isEntryName (find_of_lookup hlookup)
  have hthere := leads_of_lookup hlookup
  exact ⟨here, there, hsound, hleads, hthere, fun category =>
    ⟨(hclear category).1.of_leads (isFileName_fileName category) hleads,
      (hclear category).2.of_leads (isFileName_fileName category) hthere⟩⟩

/-- The backup's path is not empty. -/
theorem backup_nonempty (directory : Path) :
  (backup directory).spelling.isEmpty = false
  := by
  have hne : (backup directory).components ≠ [] := by
    rw [backup, (directory.child_spec isFileName_backup.isEntryName).1]
    simp
  rw [Path.components, ne_eq, Path.componentsOf_eq_nil] at hne
  simpa using hne

/-- A ready directory has its backup. -/
theorem IsReady.makeAll (h : IsReady directory t here there) :
  t.makeAll (DirectoryStore.backup directory) = (.ok (), t)
  :=
  makeAll_of_isDirectory (isDirectory_iff.mpr ⟨there, h.backup.lookup (backup_nonempty directory)⟩)

/-- A directory stays ready if nothing changes but the files of a category. -/
theorem IsReady.of_differAmong (h : IsReady directory t here there) {category : Category}
    (hdiffer : DifferAmong [here ++ [fileName category], there ++ [fileName category]] t t') :
  IsReady directory t' here there
  := by
  have hmost {place : List String} (hplace : t.HoldsFileAtMost place) : t'.HoldsFileAtMost place := by
    by_cases hmem : place ∈ [here ++ [fileName category], there ++ [fileName category]]
    · exact hdiffer.atMost place hmem
    · intro entry hentry
      rw [hdiffer.elsewhere place hmem] at hentry
      exact hplace entry hentry
  exact ⟨hdiffer.isSound, hdiffer.sameFrame.leads h.leads, hdiffer.sameFrame.leads h.backup, fun category =>
    ⟨hmost (h.atMost category).1, hmost (h.atMost category).2⟩⟩

/-! ### Saving one category -/

/-- Changes are carried out in parts. -/
theorem carryOut_append {act : FileTree → FileAction → Except FileError Unit × FileTree}
    {actions more : List FileAction} (h : carryOut act actions t = (.ok (), t')) :
  carryOut act (actions ++ more) t = carryOut act more t'
  := by
  induction actions generalizing t with
  | nil =>
    cases h
    rfl
  | cons action actions ih =>
    rw [carryOut] at h
    rw [List.cons_append, carryOut]
    split at h
    · exact ih h
    · cases h

/-- The old file of a category is moved out of the way, if there is one. -/
theorem IsReady.exists_move (h : IsReady directory t here there) (category : Category) :
  ∃ t', carryOut FileTree.act (if t.exists (directory.child (fileName category)) then
      [.move (directory.child (fileName category)) ((DirectoryStore.backup directory).child (fileName category))]
    else []) t = (.ok (), t') ∧
    DifferAmong [here ++ [fileName category], there ++ [fileName category]] t t'
  := by
  have hname := isFileName_fileName category
  have hmost := h.atMost category
  split
  case isTrue hexists =>
    obtain ⟨octets, modified, hold⟩ := (exists_child h.leads hname hmost.1).mp hexists
    obtain ⟨t', hrename, hdiffer⟩ := exists_rename h.isSound h.leads h.backup hname hold hmost.2
    refine ⟨t', ?_, hdiffer⟩
    rw [carryOut, FileTree.act, hrename]
    rfl
  case isFalse =>
    refine ⟨t, rfl, .refl h.isSound ?_⟩
    rw [List.forall_mem_cons, List.forall_mem_singleton]
    exact hmost

/-- A category can be saved in a ready directory.  It leaves the directory ready and the other files alone. -/
theorem IsReady.exists_save (h : IsReady directory t here there) (category : Category) (value : Json) :
  ∃ t', save ⟨some directory, true⟩ t category value = (.ok (), ⟨some directory, true⟩, t') ∧
    IsReady directory t' here there ∧
    (∃ modified, t'.entry? (here ++ [fileName category]) = some (.file (content value).toUTF8 modified)) ∧
    ∀ other ≠ category, t'.entry? (here ++ [fileName other]) = t.entry? (here ++ [fileName other])
  := by
  have hname := isFileName_fileName category
  obtain ⟨t₁, hmove, hmoved⟩ := h.exists_move category
  have h₁ := h.of_differAmong hmoved
  obtain ⟨t', modified, hwrite, hwritten, hdiffer⟩ :=
    exists_writeText h₁.isSound h₁.leads hname (h₁.atMost category).1 (content value)
  have hdiffers := hmoved.trans (.of_differAt hdiffer h₁.isSound List.mem_cons_self hmoved.atMost)
  refine ⟨t', ?_, h.of_differAmong hdiffers, ⟨modified, hwritten⟩, fun other hother => hdiffers.elsewhere _ ?_⟩
  · have hreplace : carryOut FileTree.act (replacement directory t category value) t = (.ok (), t') := by
      have hact : t₁.act (.write (directory.child (fileName category)) (content value)) = (.ok (), t') := by
        rw [FileTree.act, hwrite]
        rfl
      rw [replacement, carryOut_append hmove]
      change carryOut FileTree.act [.write (directory.child (fileName category)) (content value)] t₁ = _
      rw [carryOut, hact]
      rfl
    change ((carryOut FileTree.act (replacement directory t category value) t).1, _, _) = _
    rw [hreplace]
  · have hne : fileName other ≠ fileName category := fun heq => hother (fileName_injective heq)
    simp only [List.mem_cons, List.not_mem_nil, or_false, not_or]
    constructor <;>
    · intro heq
      exact hne (List.cons.inj (List.append_inj' heq rfl).2).1

/-- What is saved in a directory that is not prepared is saved once the directory is made. -/
theorem save_of_makeAll {prepared : Bool} (hmake : t.makeAll (backup directory) = (.ok (), t'))
    (hprepared : prepared = true → t' = t) (category : Category) (value : Json) :
  save ⟨some directory, prepared⟩ t category value = save ⟨some directory, true⟩ t' category value
  := by
  cases prepared with
  | true => rw [hprepared rfl]
  | false =>
    have hcarry : carryOut FileTree.act [.makeDirectories (backup directory)] t = (.ok (), t') := by
      rw [carryOut, FileTree.act, hmake]
      rfl
    rw [save, saveWith, saveWith]
    dsimp only
    rw [if_neg Bool.false_ne_true, hcarry]
    rfl

/-- In a directory that cannot be made nothing is saved, though some of those above it may have been made. -/
theorem save_of_makeAll_error {cause : FileError} (hmake : t.makeAll (backup directory) = (.error cause, t'))
    (category : Category) (value : Json) :
  save ⟨some directory, false⟩ t category value =
    (.error (.unsaved (backup directory) cause), ⟨some directory, false⟩, t')
  := by
  have hcarry : carryOut FileTree.act [.makeDirectories (backup directory)] t =
      (.error (.unsaved (backup directory) cause), t') := by
    rw [carryOut, FileTree.act, hmake]
    rfl
  rw [save, saveWith]
  dsimp only
  rw [if_neg Bool.false_ne_true, hcarry]

end DirectoryStore

/-! ### Saving all categories -/

namespace Project

open DirectoryStore (IsReady IsClear backup fileName content)

/-- The files of a directory hold settings. -/
def HeldIn (s : Settings) (t : FileTree) (here : List String) : Prop :=
  ∀ category, ∃ modified,
    t.entry? (here ++ [fileName category]) = some (.file (content (s.storedValue category)).toUTF8 modified)

variable {σ : Type} {p : Project DirectoryStore} {w : Workspace σ} {directory : Path} {here there : List String}

/-- In a ready directory, categories are saved one after the other. -/
theorem persistCategories_of_isReady (hstore : p.store = ⟨some directory, true⟩)
    (h : IsReady directory w.files here there) {categories : List Category} (hnodup : categories.Nodup) :
  ∃ t, p.persistCategories w categories = (.ok (), p, { w with files := t }) ∧ IsReady directory t here there ∧
    (∀ category ∈ categories, ∃ modified, t.entry? (here ++ [fileName category]) =
      some (.file (content (p.settings.storedValue category)).toUTF8 modified)) ∧
    ∀ category ∉ categories, t.entry? (here ++ [fileName category]) = w.files.entry? (here ++ [fileName category])
  := by
  induction categories generalizing w with
  | nil => exact ⟨w.files, rfl, h, nofun, fun _ _ => rfl⟩
  | cons category rest ih =>
    obtain ⟨hcategory, hnodup⟩ := List.nodup_cons.mp hnodup
    obtain ⟨t₁, hsave, h₁, ⟨modified, hsaved⟩, hothers⟩ := h.exists_save category (p.settings.storedValue category)
    obtain ⟨t, hpersist, hready, hrest, hkept⟩ := ih (w := { w with files := t₁ }) h₁ hnodup
    refine ⟨t, ?_, hready, ?_, ?_⟩
    · have hproject : { p with store := ⟨some directory, true⟩ } = p := by
        rw [← hstore]
      have hsaved : SettingsStore.save p.store w.files category (p.value category true) =
          (.ok (), ⟨some directory, true⟩, t₁) := by
        rw [hstore]
        exact hsave
      rw [persistCategories, hsaved]
      dsimp only
      rw [hproject, hpersist]
    · rw [List.forall_mem_cons]
      exact ⟨⟨modified, (hkept category hcategory).trans hsaved⟩, hrest⟩
    · intro other hother
      rw [List.mem_cons, not_or] at hother
      exact (hkept other hother.2).trans (hothers other hother.1)

end Project

end CallGraph
