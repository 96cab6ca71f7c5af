import CallGraph.Proofs.Settings.Kept
import CallGraph.Proofs.Settings.Reopening
import CallGraph.Proofs.Settings.Repeats
import CallGraph.Proofs.Source.Unchanged

/-!
# Additions that are made again

What a user adds to settings is added to those that were stored with it again when they are loaded.  The first time the
names of files that were added come to be stored with the others, and repeats go; then nothing changes any more.  On the
way everything is still found below the same entry of the search path first, and the same entries come last.
-/

namespace CallGraph

open Source (SameFirst SameSources)

/-- What a user adds to the search path. -/
def UserScope.entries (user : UserScope) : List Path :=
  user.addToSearchPath.filter fun p => !p.spelling.isEmpty

/-! ### Added files -/

namespace ScopeSettings

variable {t t' : FileTree} {searchPath searchPath' looked added : List Path}

section SameSources

variable (h : SameSources searchPath looked t t') (hsound : t.IsSound) (hadded : added ⊆ looked)

include h hsound hadded

/-- Files that the search path names keep their names. -/
theorem fileModules_eq :
  fileModules t' searchPath added = fileModules t searchPath added
  :=
  List.filterMap_congr fun _ hfile => h.moduleName?_eq hsound (hadded hfile)

/-- Files that the search path does not name stay without names. -/
theorem looseFiles_eq :
  looseFiles t' searchPath added = looseFiles t searchPath added
  := by
  apply List.filter_congr
  intro file hfile
  rw [h.moduleName?_eq hsound (hadded hfile), FileTree.isFile, FileTree.isFile, h.paths file (hadded hfile)]

end SameSources

section SameFirst

variable (h : SameFirst searchPath searchPath') (hsound : t.IsSound) (added : List Path)

include h hsound

theorem fileModules_of_sameFirst :
  fileModules t searchPath' added = fileModules t searchPath added
  :=
  List.filterMap_congr fun file _ => SameFirst.moduleName?_eq h hsound file

theorem looseFiles_of_sameFirst :
  looseFiles t searchPath' added = looseFiles t searchPath added
  :=
  List.filter_congr fun file _ => by rw [SameFirst.moduleName?_eq h hsound file]

end SameFirst

end ScopeSettings

/-! ### Additions to settings -/

namespace Settings

variable {s : Settings} {t t' t'' : FileTree} {user : UserScope} {runtime looked : List Path} {directory : Path}

theorem eq_of_fields {s s' : Settings} (hproject : s.projectSettings = s'.projectSettings)
    (hsysPath : s.sysPath = s'.sysPath) (hbookmarks : s.bookmarks = s'.bookmarks) (hmodules : s.modules = s'.modules)
    (hfiles : s.files = s'.files) (hscripts : s.scripts = s'.scripts) :
  s = s'
  := by
  cases s
  cases s'
  congr

/-- Settings that end with what a user adds, and whose search path has no empty entries. -/
structure EndsWith (s : Settings) (t : FileTree) (user : UserScope) : Prop where
  named : ∀ e ∈ s.sysPath, e.spelling.isEmpty = false
  entries : user.entries ⊆ s.sysPath
  modules : ∃ saved, s.modules =
    distinct (saved ++ user.moduleNames) ++ ScopeSettings.fileModules t s.sysPath user.files
  scripts : ∃ saved, IsDistinct saved ∧ s.scripts = saved ++ ScopeSettings.looseFiles t s.sysPath user.files

/-- Settings that were saved in a directory, with what a user adds again. -/
def again (s : Settings) (directory : Path) (t : FileTree) (user : UserScope) (runtime : List Path) : Settings :=
  (s.merged directory).extended t true user runtime

theorem sysPath_extended (s : Settings) (t : FileTree) (hasSaved : Bool) (user : UserScope) (runtime : List Path) :
  ∃ base, (s.extended t hasSaved user runtime).sysPath = base ++ user.entries
  :=
  ⟨_, List.filter_append _ _⟩

/-- The same is added over files that lead to the same. -/
theorem extended_congr (hsound : t.IsSound) {hasSaved : Bool}
    (hsources : SameSources (s.extended t hasSaved user runtime).sysPath looked t t') (hlooked : user.files ⊆ looked) :
  s.extended t' hasSaved user runtime = s.extended t hasSaved user runtime
  :=
  eq_of_fields rfl rfl rfl (congrArg (_ ++ ·) (ScopeSettings.fileModules_eq hsources hsound hlooked)) rfl
    (congrArg (_ ++ ·) (ScopeSettings.looseFiles_eq hsources hsound hlooked))

/-- Settings end with what a user adds once it is added to them. -/
theorem endsWith_extended (hscripts : IsDistinct s.scripts) (t : FileTree) (hasSaved : Bool) (user : UserScope)
    (runtime : List Path) :
  (s.extended t hasSaved user runtime).EndsWith t user
  := by
  refine ⟨?_, ?_, ⟨s.modules, rfl⟩, ⟨s.scripts, hscripts, rfl⟩⟩
  · intro e he
    have hnamed := (List.mem_filter.mp he).2
    simpa using hnamed
  · obtain ⟨base, hsysPath⟩ := s.sysPath_extended t hasSaved user runtime
    rw [hsysPath]
    exact List.subset_append_right _ _

/-- What is added again is added to what is there. -/
theorem endsWith_again (s : Settings) (directory : Path) (t : FileTree) (user : UserScope) (runtime : List Path) :
  (s.again directory t user runtime).EndsWith t user
  :=
  endsWith_extended (isDistinct_distinct s.scripts) t true user runtime

namespace EndsWith

variable (h : s.EndsWith t user)

include h

/-- The search path loses its repeats and gains what is added. -/
theorem sysPath_again (directory : Path) (t' : FileTree) (runtime : List Path) :
  (s.again directory t' user runtime).sysPath = distinct s.sysPath ++ user.entries
  := by
  obtain ⟨more, hmore, hsubset⟩ := exists_appendMissing [] s.sysPath
  have hnamed : ∀ e ∈ distinct s.sysPath, (!e.spelling.isEmpty) = true := by
    intro e he
    rw [distinct_eq, hmore, List.nil_append] at he
    rw [h.named e (hsubset he)]
    rfl
  change (distinct s.sysPath ++ user.addToSearchPath).filter (fun p => !p.spelling.isEmpty) = _
  rw [List.filter_append, List.filter_eq_self.mpr hnamed]
  rfl

/-- On the search path everything is found below the same entry first. -/
theorem sameFirst_again (directory : Path) (t' : FileTree) (runtime : List Path) :
  SameFirst s.sysPath (s.again directory t' user runtime).sysPath
  := by
  intro β f hf
  have hdistinct : (distinct s.sysPath).findSome? f = s.sysPath.findSome? f := findSome?_appendMissing hf [] s.sysPath
  rw [h.sysPath_again, List.findSome?_append, hdistinct]
  cases hfound : s.sysPath.findSome? f with
  | some found => rfl
  | none =>
    have hentries : user.entries.findSome? f = none := by
      rw [List.findSome?_eq_none_iff] at hfound ⊢
      exact fun e he => hfound e (h.entries he)
    rw [hentries]
    rfl

section Sources

variable (hsound : t.IsSound) (hsound' : t'.IsSound) (hsources : SameSources s.sysPath looked t t')
  (hlooked : user.files ⊆ looked)

include hsound hsound' hsources hlooked

/-- Files that are added again are modules with the names that they had. -/
theorem fileModules_again (directory : Path) (runtime : List Path) :
  ScopeSettings.fileModules t' (s.again directory t' user runtime).sysPath user.files =
    ScopeSettings.fileModules t s.sysPath user.files
  :=
  (ScopeSettings.fileModules_of_sameFirst (h.sameFirst_again directory t' runtime) hsound' user.files).trans
    (ScopeSettings.fileModules_eq hsources hsound hlooked)

/-- Files that are added again are scripts if they were. -/
theorem looseFiles_again (directory : Path) (runtime : List Path) :
  ScopeSettings.looseFiles t' (s.again directory t' user runtime).sysPath user.files =
    ScopeSettings.looseFiles t s.sysPath user.files
  :=
  (ScopeSettings.looseFiles_of_sameFirst (h.sameFirst_again directory t' runtime) hsound' user.files).trans
    (ScopeSettings.looseFiles_eq hsources hsound hlooked)

/-- Of the modules the same come last. -/
theorem modules_again (directory : Path) (runtime : List Path) :
  SameLast s.modules (s.again directory t' user runtime).modules
  := by
  obtain ⟨saved, hmodules⟩ := h.modules
  obtain ⟨extra, hextra, hagain, -⟩ := exists_distinct_again saved user.moduleNames
    (ScopeSettings.fileModules t s.sysPath user.files)
  have hmodules' : (s.again directory t' user runtime).modules =
      distinct (distinct s.modules ++ user.moduleNames) ++
        ScopeSettings.fileModules t' (s.again directory t' user runtime).sysPath user.files := rfl
  rw [hmodules', h.fileModules_again hsound hsound' hsources hlooked, hmodules, hagain]
  exact sameLast_of_subset hextra

/-- Of the scripts the same come last. -/
theorem scripts_again (directory : Path) (runtime : List Path) :
  SameLast s.scripts (s.again directory t' user runtime).scripts
  := by
  obtain ⟨saved, hsaved, hscripts⟩ := h.scripts
  obtain ⟨extra, hagain, hextra⟩ := exists_appendMissing saved (ScopeSettings.looseFiles t s.sysPath user.files)
  have hscripts' : (s.again directory t' user runtime).scripts = distinct s.scripts ++
      ScopeSettings.looseFiles t' (s.again directory t' user runtime).sysPath user.files := rfl
  rw [hscripts', h.looseFiles_again hsound hsound' hsources hlooked, hscripts, distinct_append, hsaved.distinct_eq, hagain]
  exact sameLast_of_subset hextra

end Sources

/-- Additions that are made once more change nothing. -/
theorem again_again (hsound : t.IsSound) (hsound' : t'.IsSound) (hsound'' : t''.IsSound)
    (hsources : SameSources s.sysPath looked t t') (hlooked : user.files ⊆ looked) {looked' : List Path}
    (hsources' : SameSources (s.again directory t' user runtime).sysPath looked' t' t'')
    (hlooked' : user.files ⊆ looked') :
  (s.again directory t' user runtime).again directory t'' user runtime = s.again directory t' user runtime
  := by
  have hends := s.endsWith_again directory t' user runtime
  have hsysPath : (s.again directory t' user runtime).sysPath = distinct s.sysPath ++ user.entries :=
    h.sysPath_again directory t' runtime
  have hmodules : (s.again directory t' user runtime).modules =
      distinct (distinct s.modules ++ user.moduleNames) ++ ScopeSettings.fileModules t s.sysPath user.files :=
    congrArg (_ ++ ·) (h.fileModules_again hsound hsound' hsources hlooked directory runtime)
  have hscripts : (s.again directory t' user runtime).scripts =
      distinct s.scripts ++ ScopeSettings.looseFiles t s.sysPath user.files :=
    congrArg (_ ++ ·) (h.looseFiles_again hsound hsound' hsources hlooked directory runtime)
  have hmodules' : ((s.again directory t' user runtime).again directory t'' user runtime).modules =
      distinct (distinct (s.again directory t' user runtime).modules ++ user.moduleNames) ++
        ScopeSettings.fileModules t s.sysPath user.files := by
    rw [← h.fileModules_again hsound hsound' hsources hlooked directory runtime,
      ← hends.fileModules_again hsound' hsound'' hsources' hlooked' directory runtime]
    rfl
  have hscripts' : ((s.again directory t' user runtime).again directory t'' user runtime).scripts =
      distinct (s.again directory t' user runtime).scripts ++ ScopeSettings.looseFiles t s.sysPath user.files := by
    rw [← h.looseFiles_again hsound hsound' hsources hlooked directory runtime,
      ← hends.looseFiles_again hsound' hsound'' hsources' hlooked' directory runtime]
    rfl
  apply eq_of_fields
  · rfl
  · rw [hends.sysPath_again, hsysPath, distinct_append_of_subset h.entries]
  · exact distinct_distinct s.bookmarks
  · obtain ⟨saved, hsaved⟩ := h.modules
    obtain ⟨extra, -, hagain, honce⟩ := exists_distinct_again saved user.moduleNames
      (ScopeSettings.fileModules t s.sysPath user.files)
    rw [hmodules', hmodules, hsaved, hagain, honce]
  · exact distinct_distinct s.files
  · obtain ⟨saved, -, hsaved⟩ := h.scripts
    have hloose : ScopeSettings.looseFiles t s.sysPath user.files ⊆ s.scripts :=
      hsaved ▸ List.subset_append_right _ _
    rw [hscripts', hscripts, distinct_append_of_subset hloose]

end EndsWith

end Settings

end CallGraph

/-!
## What becomes of what a user adds

Settings that were saved are merged with what a user adds to them.  The names of modules that were saved or are added
come without repeats, each where it stands first, and the names that the search path gives to added files come behind
them.  Every added file gives a module or a script, or else a warning.  A name is repeated only where a file is added
whose module is tracked already.
-/

namespace CallGraph

/-! ### First occurrences -/

section FirstOccurrences

variable {α : Type} [BEq α]

/-- A list of the entries of another one, each once and in the order in which they first stand there. -/
structure KeepsFirst (items kept : List α) : Prop where
  mem (a : α) : a ∈ kept ↔ a ∈ items
  order : kept.Pairwise fun a b => items.idxOf a < items.idxOf b

theorem KeepsFirst.nodup {items kept : List α} (h : KeepsFirst items kept) :
  kept.Nodup
  := by
  apply h.order.imp
  rintro a _ hlt rfl
  exact Nat.lt_irrefl _ hlt

variable [LawfulBEq α]

theorem isDistinct_iff_nodup {items : List α} :
  IsDistinct items ↔ items.Nodup
  := by
  unfold IsDistinct List.Nodup
  refine iff_of_eq (congrArg (List.Pairwise · items) ?_)
  funext a b
  rw [beq_eq_false_iff_ne, ne_comm]

/-- One more entry comes behind the others if it is new. -/
theorem KeepsFirst.append_singleton {items kept : List α} (h : KeepsFirst items kept) (a : α) :
  KeepsFirst (items ++ [a]) (if kept.contains a then kept else kept ++ [a])
  := by
  have hidx {b : α} (hb : b ∈ kept) : (items ++ [a]).idxOf b = items.idxOf b := by
    rw [List.idxOf_append, if_pos ((h.mem b).mp hb)]
  have hkept : kept.Pairwise fun b c => (items ++ [a]).idxOf b < (items ++ [a]).idxOf c := by
    apply h.order.imp_of_mem
    intro b c hb hc hlt
    rwa [hidx hb, hidx hc]
  split
  case isTrue hthere =>
    have ha : a ∈ items := (h.mem a).mp (List.contains_iff_mem.mp hthere)
    exact ⟨fun b => by simp +contextual [h.mem b, ha], hkept⟩
  case isFalse hnew =>
    have ha : a ∉ items := fun ha => hnew (List.contains_iff_mem.mpr ((h.mem a).mpr ha))
    refine ⟨fun b => by simp [h.mem b], List.pairwise_append.mpr ⟨hkept, List.pairwise_singleton _ _, ?_⟩⟩
    intro b hb c hc
    rw [List.mem_singleton.mp hc, hidx hb, List.idxOf_append, if_neg ha]
    exact Nat.lt_of_lt_of_le (List.idxOf_lt_length_of_mem ((h.mem b).mp hb)) (Nat.le_add_left _ _)

/-- To take out repeats is to keep first occurrences. -/
theorem keepsFirst_distinct (items : List α) :
  KeepsFirst items (distinct items)
  := by
  induction items using List.reverseRecOn with
  | nil => exact ⟨fun a => Iff.rfl, List.Pairwise.nil⟩
  | append_singleton items a ih =>
    rw [distinct_append]
    exact ih.append_singleton a

/-- Entries put behind first occurrences are first occurrences themselves exactly if they are new and without
repeats. -/
theorem keepsFirst_distinct_append_iff {items more : List α} :
  KeepsFirst (items ++ more) (distinct items ++ more) ↔ more.Nodup ∧ ∀ a ∈ more, a ∉ items
  := by
  have hnodup : (distinct items ++ more).Nodup ↔ more.Nodup ∧ ∀ a ∈ more, a ∉ items := by
    have hdistinct := (keepsFirst_distinct items).nodup
    rw [List.nodup_append]
    constructor
    · rintro ⟨-, hmore, hapart⟩
      exact ⟨hmore, fun a ha hitems => hapart a (((keepsFirst_distinct items).mem a).mpr hitems) a ha rfl⟩
    · rintro ⟨hmore, hnew⟩
      refine ⟨hdistinct, hmore, ?_⟩
      rintro a ha _ hmem rfl
      exact hnew a hmem (((keepsFirst_distinct items).mem a).mp ha)
  rw [← hnodup]
  constructor
  · exact KeepsFirst.nodup
  · intro h
    have happend : distinct (items ++ more) = distinct items ++ more := by
      rw [distinct_append]
      exact (isDistinct_iff_nodup.mpr h).appendMissing_eq
    rw [← happend]
    exact keepsFirst_distinct (items ++ more)

end FirstOccurrences

/-! ### Merged settings -/

namespace ScopeSettings

/-- The files that are neither named by a search path nor there at all. -/
def lostFiles (files : FileTree) (searchPath added : List Path) : List Path :=
  added.filter fun file => (moduleName? files searchPath file).isNone && !files.isFile file

/-- Settings and warnings that account for what was saved, what a user adds and the search path it is added to. -/
structure Accounts (files : FileTree) (saved : ScopeSettings) (user : UserScope) (base : List Path)
    (merged : ScopeSettings × List LogLine) : Prop where
  /-- The search path is extended, and loses its empty entries. -/
  searchPath : merged.1.searchPath = (base ++ user.addToSearchPath).filter fun p => !p.spelling.isEmpty
  /-- The names of added files come behind the others, which come without repeats in the order of their first
  occurrences. -/
  names : ∃ listed, KeepsFirst (saved.moduleNames ++ user.moduleNames) listed ∧
    merged.1.moduleNames = listed ++ fileModules files merged.1.searchPath user.files
  /-- All names come without repeats, in the order of first occurrences, exactly if those of added files are new and
  without repeats. -/
  once : KeepsFirst (saved.moduleNames ++ user.moduleNames ++ fileModules files merged.1.searchPath user.files)
      merged.1.moduleNames ↔
    (fileModules files merged.1.searchPath user.files).Nodup ∧
      ∀ name ∈ fileModules files merged.1.searchPath user.files,
        name ∉ saved.moduleNames ∧ name ∉ user.moduleNames
  scripts : merged.1.scripts = saved.scripts ++ looseFiles files merged.1.searchPath user.files
  warnings : merged.2 =
    (lostFiles files merged.1.searchPath user.files).map fun file => .warn s!"Could not resolve module for {file}"
  /-- Every added file is a module or a script or lost, and no two of these. -/
  shared : (fileModules files merged.1.searchPath user.files).length +
      (looseFiles files merged.1.searchPath user.files).length +
      (lostFiles files merged.1.searchPath user.files).length = user.files.length

theorem snd_foldl_addFile (files : FileTree) (added : List Path) (s : ScopeSettings) (log : List LogLine) :
  (added.foldl (addFile files) (s, log)).2 =
    log ++ (lostFiles files s.searchPath added).map fun file => .warn s!"Could not resolve module for {file}"
  := by
  induction added generalizing s log with
  | nil => simp [lostFiles]
  | cons file added ih =>
    rw [List.foldl_cons, addFile]
    cases hname : moduleName? files s.searchPath file with
    | some name => simp [ih, lostFiles, hname]
    | none => by_cases hfile : files.isFile file <;> simp [ih, lostFiles, hname, hfile]

theorem length_added (files : FileTree) (searchPath added : List Path) :
  (fileModules files searchPath added).length + (looseFiles files searchPath added).length +
    (lostFiles files searchPath added).length = added.length
  := by
  induction added with
  | nil => rfl
  | cons file added ih =>
    simp only [fileModules, looseFiles, lostFiles, List.filterMap_cons, List.filter_cons, List.length_cons] at ih ⊢
    cases moduleName? files searchPath file with
    | some name =>
      simp only [Option.isNone_some, Bool.false_and, Bool.false_eq_true, if_false, List.length_cons]
      omega
    | none =>
      by_cases hfile : files.isFile file = true <;> simp [hfile] <;> omega

/-- Merged settings account for all that they were merged from. -/
theorem merge_accounts (files : FileTree) (hasSaved : Bool) (saved : ScopeSettings) (user : UserScope)
    (runtime : List Path) :
  Accounts files saved user
    (if hasSaved then saved.searchPath else if user.includeRuntime then runtime else [])
    (merge files hasSaved saved user runtime)
  := by
  have hmerged := fst_merge files hasSaved saved user runtime
  have hsearchPath : (merge files hasSaved saved user runtime).1.searchPath =
      effectivePath hasSaved saved user runtime := by
    rw [hmerged]
  have hnames : (merge files hasSaved saved user runtime).1.moduleNames =
      distinct (saved.moduleNames ++ user.moduleNames) ++
        fileModules files (merge files hasSaved saved user runtime).1.searchPath user.files := by
    rw [hmerged]
  constructor
  case searchPath =>
    rw [hsearchPath]
    rfl
  case names => exact ⟨_, keepsFirst_distinct _, hnames⟩
  case once =>
    rw [hnames, keepsFirst_distinct_append_iff]
    simp only [List.mem_append, not_or]
  case scripts =>
    rw [hsearchPath, hmerged]
  case warnings =>
    rw [hsearchPath]
    exact (snd_foldl_addFile files user.files _ []).trans (List.nil_append _)
  case shared => exact length_added files _ user.files

/-- A package with a module in it. -/
def packaged : FileTree :=
  { entries := [(["tmp"], .directory), (["tmp", "w"], .directory), (["tmp", "w", "pkg"], .directory),
      (["tmp", "w", "pkg", "__init__.py"], .file "".toUTF8 1), (["tmp", "w", "pkg", "core.py"], .file "".toUTF8 2)] }

/-- A file that is added though its module was saved gives a name that is there twice. -/
theorem not_keepsFirst_tracked :
  ∃ merged, (merge packaged true { moduleNames := ["pkg.core"], searchPath := [⟨"/tmp/w"⟩] }
      { files := [⟨"/tmp/w/pkg/core.py"⟩] } []).1 = merged ∧
    merged.moduleNames = ["pkg.core", "pkg.core"] ∧ ¬ merged.moduleNames.Nodup ∧
    ¬ KeepsFirst (["pkg.core"] ++ [] ++ fileModules packaged merged.searchPath [⟨"/tmp/w/pkg/core.py"⟩])
      merged.moduleNames
  := by
  have hnames : (merge packaged true { moduleNames := ["pkg.core"], searchPath := [⟨"/tmp/w"⟩] }
      { files := [⟨"/tmp/w/pkg/core.py"⟩] } []).1.moduleNames = ["pkg.core", "pkg.core"] := by
    decide +kernel
  have htwice : ¬ ["pkg.core", "pkg.core"].Nodup := by decide
  refine ⟨_, rfl, hnames, hnames ▸ htwice, fun h => ?_⟩
  exact htwice (hnames ▸ h.nodup)

end ScopeSettings

end CallGraph
