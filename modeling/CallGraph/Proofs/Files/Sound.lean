import CallGraph.Proofs.Files.Lookup
import Mathlib.Data.List.Induction

/-!
# Sound file trees

A file tree is sound when every entry stands in a directory and relative paths start in one.  Look-ups in a
sound tree end at an entry that is there, or at a free name in a directory that is there, and the place they
end at can be read off its path.
-/

namespace CallGraph

/-! ### Names of entries -/

/-- A text that, as a piece of a path, stands for an entry of a directory. -/
def IsEntryName (name : String) : Prop :=
  '/' ∉ name.toList ∧ Path.componentOf name.toList = some (.name name)

instance (name : String) : Decidable (IsEntryName name) :=
  inferInstanceAs (Decidable (_ ∧ _))

theorem Path.plain_of_mem_pieces {cs piece : List Char} (h : piece ∈ Path.pieces cs) :
  '/' ∉ piece
  := by
  induction cs generalizing piece with
  | nil =>
    rw [List.mem_singleton.mp h]
    exact List.not_mem_nil
  | cons c cs ih =>
    obtain ⟨first, rest, hcs⟩ := List.exists_cons_of_ne_nil (Path.pieces_ne_nil cs)
    by_cases hc : c = '/'
    · subst hc
      rw [Path.pieces_slash] at h
      rcases List.mem_cons.mp h with rfl | h
      · exact List.not_mem_nil
      · exact ih h
    · rw [Path.pieces_cons hc hcs] at h
      rcases List.mem_cons.mp h with rfl | h
      · rw [List.mem_cons, not_or]
        exact ⟨Ne.symm hc, ih (hcs ▸ List.mem_cons_self)⟩
      · exact ih (hcs ▸ List.mem_cons_of_mem _ h)

/-- The names along a path are names of entries. -/
theorem Path.isEntryName_of_mem_components {p : Path} {name : String} (h : .name name ∈ p.components) :
  IsEntryName name
  := by
  have hpiece (pieces : List (List Char)) (hpieces : ∀ piece ∈ pieces, '/' ∉ piece)
      (hmem : .name name ∈ pieces.filterMap Path.componentOf) : IsEntryName name := by
    obtain ⟨piece, hpiece, hname⟩ := List.mem_filterMap.mp hmem
    obtain ⟨rfl, -⟩ := Path.eq_of_componentOf hname
    exact ⟨hpieces _ hpiece, hname⟩
  obtain ⟨first, rest, hpieces⟩ := List.exists_cons_of_ne_nil (Path.pieces_ne_nil p.spelling.toList)
  have hplain : ∀ piece ∈ first :: rest, '/' ∉ piece := fun piece hmem =>
    Path.plain_of_mem_pieces (hpieces ▸ hmem)
  have hrest : ∀ piece ∈ rest, '/' ∉ piece := fun piece hmem => hplain piece (List.mem_cons_of_mem _ hmem)
  rw [Path.components, Path.componentsOf, hpieces] at h
  dsimp only at h
  split at h
  · exact hpiece rest hrest ((List.mem_cons.mp h).resolve_left (by rintro ⟨⟩))
  · split at h
    · exact hpiece rest hrest ((List.mem_cons.mp h).resolve_left (by rintro ⟨⟩))
    · exact hpiece _ hplain h

/-- The names of a path made of names are these names. -/
theorem Path.names_ofNames {names : List String} (h : ∀ name ∈ names, IsEntryName name) :
  (Path.ofNames names).names = names
  := by
  have hcomponents : Path.innerComponents ("/".intercalate names).toList = names.map .name := by
    rw [String.toList_intercalate, Path.innerComponents]
    induction names with
    | nil => rfl
    | cons name names ih =>
      rw [List.forall_mem_cons] at h
      obtain ⟨⟨hplain, hname⟩, hnames⟩ := h
      cases names with
      | nil =>
        rw [List.map_singleton, List.intercalate_singleton, Path.pieces_of_notMem hplain, List.filterMap_cons,
          hname]
        rfl
      | cons next names =>
        rw [List.map_cons, List.map_cons, List.intercalate_cons_cons, List.append_assoc]
        change List.filterMap _ (Path.pieces (name.toList ++ '/' :: _)) = _
        rw [Path.pieces_append_slash, Path.pieces_of_notMem hplain, List.singleton_append, List.filterMap_cons,
          hname, List.map_cons]
        exact congrArg _ (ih hnames)
  have hspelling : ("/" ++ "/".intercalate names).toList = '/' :: ("/".intercalate names).toList := by
    rw [String.toList_append]
    rfl
  rw [Path.names, Path.ofNames, Path.components, hspelling, Path.componentsOf_slash, hcomponents,
    List.filterMap_cons, List.filterMap_map]
  exact List.filterMap_some

namespace FileTree

/-- The names that steps enter are names of entries. -/
theorem isEntryName_of_mem_stepsOf {spelling name : String} (h : Step.enter name ∈ stepsOf spelling) :
  IsEntryName name
  := by
  rw [stepsOf_eq ⟨spelling⟩] at h
  have hstep : Step.enter name ∈ (Path.components ⟨spelling⟩).filterMap stepFor := by
    apply (List.mem_append.mp h).resolve_right
    split <;> simp
  obtain ⟨component, hmem, hstep⟩ := List.mem_filterMap.mp hstep
  cases component with
  | name text =>
    cases hstep
    exact Path.isEntryName_of_mem_components hmem
  | root => cases hstep
  | here => cases hstep
  | up => cases hstep

/-! ### Sound trees -/

/-- Every entry stands in a directory, and so do relative paths start in one. -/
structure IsSound (t : FileTree) : Prop where
  parent : ∀ {place name entry}, t.entry? (place ++ [name]) = some entry → t.entry? place = some .directory
  home : t.entry? t.workingDirectory = some .directory
  homeNames : ∀ name ∈ t.workingDirectory, IsEntryName name

/-- What holds of the root and of all places of entries holds of every place where something stands. -/
theorem forall_entry? {t : FileTree} {P : List String → Prop} (h : ∀ place ∈ [] :: t.entries.map (·.1), P place)
    (place : List String) (entry : Entry) (hentry : t.entry? place = some entry) :
  P place
  := by
  apply h
  rcases mem_entries hentry with rfl | hmem
  · exact List.mem_cons_self
  · exact List.mem_cons_of_mem _ (List.mem_map.mpr ⟨_, hmem, rfl⟩)

/-- Whether a directory stands at a place. -/
def isDirectoryAt (t : FileTree) (place : List String) : Bool :=
  match t.entry? place with
  | some .directory => true
  | _ => false

theorem isDirectoryAt_iff {t : FileTree} {place : List String} :
  t.isDirectoryAt place = true ↔ t.entry? place = some .directory
  := by
  unfold isDirectoryAt
  split <;> simp_all

/-- A tree is sound if all its entries stand in directories. -/
theorem isSound_of_entries {t : FileTree} (h : ∀ place ∈ t.entries.map (·.1), t.isDirectoryAt place.dropLast = true)
    (hhome : t.isDirectoryAt t.workingDirectory = true) (hnames : ∀ name ∈ t.workingDirectory, IsEntryName name) :
  t.IsSound
  := by
  refine ⟨fun {place name entry} hentry => ?_, isDirectoryAt_iff.mp hhome, hnames⟩
  have hmem := (mem_entries hentry).resolve_left (by simp)
  have hparent := h _ (List.mem_map.mpr ⟨_, hmem, rfl⟩)
  rw [List.dropLast_concat] at hparent
  exact isDirectoryAt_iff.mp hparent

theorem IsSound.directory_of_append {t : FileTree} (h : t.IsSound) {place more : List String} {entry : Entry}
    (hmore : more ≠ []) (hentry : t.entry? (place ++ more) = some entry) :
  t.entry? place = some .directory
  := by
  induction more using List.reverseRecOn generalizing entry with
  | nil => exact absurd rfl hmore
  | append_singleton more name ih =>
    rw [← List.append_assoc] at hentry
    have hparent := h.parent hentry
    cases more with
    | nil => rwa [List.append_nil] at hparent
    | cons first more => exact ih (List.cons_ne_nil _ _) hparent

theorem IsSound.directory_dropLast {t : FileTree} (h : t.IsSound) {place : List String}
    (hplace : t.entry? place = some .directory) :
  t.entry? place.dropLast = some .directory
  := by
  cases place using List.reverseRecOn with
  | nil => rfl
  | append_singleton place name =>
    rw [List.dropLast_concat]
    exact h.parent hplace

/-- What a look-up finds stands there, it is no link if links are followed, and what it finds to be free can be
filled. -/
inductive Stands (t : FileTree) (follow : Bool) : Found → Prop where
  | present {place : List String} {entry : Entry} (h : t.entry? place = some entry)
      (hnames : ∀ name ∈ place, IsEntryName name) (hlink : follow = true → ∀ target, entry ≠ .link target) :
      Stands t follow (.present place entry)
  | absent {directory : List String} {name : String} (h : t.entry? (directory ++ [name]) = none)
      (hdirectory : t.entry? directory = some .directory)
      (hnames : ∀ name' ∈ directory ++ [name], IsEntryName name') : Stands t follow (.absent (directory ++ [name]))

/-- A way that starts in a directory ends at what stands. -/
theorem Walks.stands {t : FileTree} (hsound : t.IsSound) {follow : Bool} {links : Nat} {place : List String}
    {steps : List Step} {found : Found} (h : t.Walks follow links place steps found)
    (hplace : t.entry? place = some .directory) (hnames : ∀ name ∈ place, IsEntryName name)
    (hsteps : ∀ name, .enter name ∈ steps → IsEntryName name) :
  t.Stands follow found
  := by
  have hentered {place : List String} {name : String} {rest : List Step} (hnames : ∀ name ∈ place, IsEntryName name)
      (hsteps : ∀ name', .enter name' ∈ Step.enter name :: rest → IsEntryName name') :
      ∀ name' ∈ place ++ [name], IsEntryName name' := by
    rw [List.forall_mem_append, List.forall_mem_singleton]
    exact ⟨hnames, hsteps name List.mem_cons_self⟩
  induction h with
  | here => exact .present hplace hnames (by rintro - _ ⟨⟩)
  | up _ ih =>
    have hdropped : ∀ name ∈ _, IsEntryName name := fun name hmem => hnames name (List.dropLast_subset _ hmem)
    exact ih (hsound.directory_dropLast hplace) hdropped fun name hmem => hsteps name (List.mem_cons_of_mem _ hmem)
  | demandDirectory _ ih => exact ih hplace hnames fun name hmem => hsteps name (List.mem_cons_of_mem _ hmem)
  | free entry => exact .absent entry hplace (hentered hnames hsteps)
  | directory entry _ ih =>
    exact ih entry (hentered hnames hsteps) fun name hmem => hsteps name (List.mem_cons_of_mem _ hmem)
  | file entry => exact .present entry (hentered hnames hsteps) (by rintro - _ ⟨⟩)
  | kept entry keeps =>
    refine .present entry (hentered hnames hsteps) fun hfollow => ?_
    rw [keeps] at hfollow
    cases hfollow
  | @link _ _ _ target rest _ _ _ _ ih =>
    have hmore : ∀ name, .enter name ∈ stepsOf target ++ rest → IsEntryName name := fun name hmem =>
      (List.mem_append.mp hmem).elim isEntryName_of_mem_stepsOf fun hrest => hsteps name (List.mem_cons_of_mem _ hrest)
    split at ih
    · exact ih rfl (List.forall_mem_nil _) hmore
    · exact ih hplace hnames hmore

/-- A path starts in a directory. -/
theorem IsSound.directory_origin {t : FileTree} (h : t.IsSound) (p : Path) :
  t.entry? (t.origin p) = some .directory ∧ ∀ name ∈ t.origin p, IsEntryName name
  := by
  unfold origin
  split
  · exact ⟨rfl, List.forall_mem_nil _⟩
  · exact ⟨h.home, h.homeNames⟩

theorem IsSound.stands_of_find {t : FileTree} (h : t.IsSound) {p : Path} {follow : Bool} {found : Found}
    (hfind : t.find p follow = .ok found) :
  t.Stands follow found
  := by
  obtain ⟨-, -, hway⟩ := find_eq_ok_iff.mp hfind
  obtain ⟨hplace, hnames⟩ := h.directory_origin p
  exact hway.stands h hplace hnames fun _ => isEntryName_of_mem_stepsOf

theorem IsSound.stands_of_lookup {t : FileTree} (h : t.IsSound) {p : Path} {place : List String} {entry : Entry}
    (hlookup : t.lookup p = .ok (place, entry)) :
  t.entry? place = some entry ∧ (∀ name ∈ place, IsEntryName name) ∧ ∀ target, entry ≠ .link target
  := by
  cases h.stands_of_find (find_of_lookup hlookup) with
  | present hentry hnames hlink => exact ⟨hentry, hnames, hlink rfl⟩

end FileTree

end CallGraph
