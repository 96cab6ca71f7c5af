import CallGraph.Proofs.Settings.Additions
import CallGraph.Proofs.Settings.Anew
import CallGraph.Source.Grammar

/-!
# Opening a project again and again

A project is opened many times with the same additions.  The first opening finds the roots that all later ones find,
the second one leaves the settings that all later ones leave, and no later one fails.  This holds as long as storing the
settings, and whatever happens to the files in between, leaves alone what the settings are resolved from and, if they
move the project to another directory, what is stored in the one that is opened.
-/

namespace CallGraph

open DirectoryStore (IsReady HasRoom fileName)
open Source

namespace Project

/-! ### What is loaded -/

variable {σ δ : Type} {w w' : Workspace σ}

/-- What is loaded depends on what is stored only. -/
theorem fst_loadCategories_congr [SettingsStore δ] {p : Project δ}
    (h : ∀ category, SettingsStore.load p.store w'.files category = SettingsStore.load p.store w.files category)
    (categories : List Category) :
  (p.loadCategories w' categories).1 = (p.loadCategories w categories).1
  := by
  induction categories generalizing w w' with
  | nil => rfl
  | cons category rest ih =>
    rw [loadCategories, loadCategories, h category]
    cases SettingsStore.load p.store w.files category with
    | ok value =>
      dsimp only
      rw [ih h]
    | error e =>
      cases e with
      | undecodable c fault => exact ih h
      | unknownCategory | unsaved => rfl

variable {p p' : Project DirectoryStore}

/-- Merged settings are kept in the project's directory, and have no script twice. -/
theorem of_mergeValues {values : List (Category × Json)} (hmerge : p.mergeValues values = (.ok (), p'))
    (hstore : p.store = { directory := p.directory }) (hscripts : IsDistinct p.settings.scripts) :
  p'.store = { directory := p'.directory } ∧ IsDistinct p'.settings.scripts
  := by
  induction values generalizing p with
  | nil =>
    cases hmerge
    exact ⟨hstore, hscripts⟩
  | cons value rest ih =>
    obtain ⟨category, value⟩ := value
    rw [mergeValues] at hmerge
    cases hvalue : p.mergeValue category value with
    | error e =>
      rw [hvalue] at hmerge
      cases hmerge
    | ok merged =>
      rw [hvalue] at hmerge
      rcases cases_of_mergeValue hvalue with ⟨place, rfl⟩ | ⟨settings, rfl, hown, new, hnew⟩
      · apply ih hmerge
        · rw [setDirectory]
          split
          case isTrue => exact hstore
          case isFalse => rw [hstore]; rfl
        · rw [setDirectory]
          split <;> exact hscripts
      · apply ih hmerge
        · have hplaced := congrArg (fun own : ProjectSettings => ({ directory := own.directory } : DirectoryStore)) hown
          exact hstore.trans hplaced.symm
        · change IsDistinct settings.scripts
          rw [hnew]
          exact hscripts.appendMissing new

/-- An opened project keeps its settings in its directory. -/
theorem place_of_openStored {s : DirectoryStore} {directory : Path} {user : UserScope} {runtime : List Path}
    (h : openStored s (some directory) user runtime w = (.ok p, w')) :
  p.store.directory = p.directory
  := by
  obtain ⟨stored, merged, loaded, log, -, hmerge, hloaded, hpersist⟩ := exists_of_openStored h
  obtain ⟨hstore, -⟩ := of_mergeValues hmerge rfl List.Pairwise.nil
  have hplaced : loaded.store.directory = loaded.directory := hloaded ▸ congrArg DirectoryStore.directory hstore
  generalize ({ w with searchPath := loaded.settings.sysPath, log } : Workspace σ) = w₁ at hpersist
  have hkept := directory_persistCategories (loaded.rebuild w₁).1 (loaded.rebuild w₁).2 Category.all
  obtain ⟨result, store, files, hstored⟩ := (loaded.rebuild w₁).1.exists_persistCategories (loaded.rebuild w₁).2
    Category.all
  rw [persist, hstored] at hpersist
  rw [hstored] at hkept
  cases hpersist
  exact hkept.trans hplaced

end Project

/-! ### What stays -/

/-- A ready directory has room for settings. -/
theorem DirectoryStore.IsReady.hasRoom {directory : Path} {t : FileTree} {here there : List String}
    (h : IsReady directory t here there) :
  HasRoom directory t
  := by
  intro made hmake
  obtain rfl : t = made := (Prod.mk.inj (h.makeAll.symm.trans hmake)).2
  have hmost {p : Path} {place : List String} (hleads : t.Leads p place) (category : Category)
      (hplace : t.HoldsFileAtMost (place ++ [fileName category])) :
      DirectoryStore.HoldsFileAtMost t (p.child (fileName category)) := by
    intro found entry hfound
    have hname := DirectoryStore.isFileName_fileName category
    have hfind : t.find (p.child (fileName category)) false = .ok (t.foundAt (place ++ [fileName category])) :=
      hleads.find_child hname.isEntryName hname.named nofun
    rw [hfind, FileTree.foundAt] at hfound
    cases hentry : t.entry? (place ++ [fileName category]) with
    | none =>
      rw [hentry] at hfound
      cases hfound
    | some other =>
      rw [hentry] at hfound
      cases hfound
      exact hplace entry hentry
  exact fun category => ⟨hmost h.leads category (h.atMost category).1, hmost h.backup category (h.atMost category).2⟩

/-- The paths of what settings are resolved from, with the files that a user gives. -/
def Settings.sources (s : Settings) (user : UserScope) : List Path :=
  user.files ++ s.scripts ++
    s.modules.flatMap fun name => (Survey.modulesFor name).flatMap (Survey.candidates s.sysPath)

theorem UserScope.files_subset_sources (user : UserScope) (s : Settings) :
  user.files ⊆ s.sources user
  := by
  rw [Settings.sources, List.append_assoc]
  exact List.subset_append_left _ _

namespace Project

/-- Whether settings that are saved in a directory stay saved there. -/
def StaySaved (s : Settings) (t t' : FileTree) : Prop :=
  (t.IsSound → t'.IsSound) ∧ ∀ place, SavedIn s place t → SavedIn s place t'

section Parsed

variable [Parser]

/-! ### Resolving the same settings -/

section Resolving

variable {s s' : Settings} {t t' : FileTree} {looked : List Path}

/-- A module has the outcome that it had. -/
theorem moduleAnew_eq (hsources : SameSources s.sysPath looked t t') (hfirst : SameFirst s.sysPath s'.sysPath)
    (hsound : t.IsSound) (hsound' : t'.IsSound) {name : String}
    (hlooked : ∀ module ∈ Survey.modulesFor name, Survey.candidates s.sysPath module ⊆ looked) :
  moduleAnew s' t' name = moduleAnew s t name
  := by
  have hanswer : (fresh t' s'.sysPath).answer (.resolve name s'.sysPath) =
      (fresh t s.sysPath).answer (.resolve name s.sysPath) :=
    (SameFirst.resolve_eq hfirst hsound' name).trans (hsources.resolve_eq hsound hlooked)
  rw [moduleAnew, moduleAnew, moduleOutcome, moduleOutcome, hanswer]
  generalize (fresh t s.sysPath).answer (.resolve name s.sysPath) = answer
  rcases answer with e | _ | d <;> rfl

/-- A script has the outcome that it had. -/
theorem scriptAnew_eq (hsources : SameSources s.sysPath looked t t') (hfirst : SameFirst s.sysPath s'.sysPath)
    (hsound : t.IsSound) (hsound' : t'.IsSound) {path : Path} (hlooked : path ∈ looked) :
  scriptAnew s' t' path = scriptAnew s t path
  := by
  have hanswer : (fresh t' s'.sysPath).answer (.script path s'.sysPath) =
      (fresh t s.sysPath).answer (.script path s.sysPath) :=
    (SameFirst.script_eq hfirst hsound' path).trans (hsources.script_eq hsound hlooked)
  have helement (d : Definition) : Search.scriptElement t' path d = Search.scriptElement t path d := by
    rw [Search.scriptElement, Search.scriptElement, FileTree.canonical, FileTree.canonical,
      hsources.paths path hlooked]
  simp only [scriptAnew, scriptOutcome, scriptAnswer, hanswer, helement]

end Resolving

/-! ### One opening -/

/-- An opening of the project of a directory, in a workspace that has read nothing yet, with the files as they are when
it is opened next.  The settings stay saved, what they are resolved from is left alone and, if they move the project to
another directory, what is stored in this one. -/
structure Opening (directory : Path) (user : UserScope) (runtime : List Path) (t : FileTree)
    (p : Project DirectoryStore) (t' : FileTree) : Prop where
  opened : ∃ (elsewhere : Option Path) (w w' : Workspace Index), w.provider = Index.provider ∧ w.analysis = {} ∧
    w.files = t ∧ StaySaved p.settings w'.files t' ∧
    openStored ({ directory := elsewhere } : DirectoryStore) (some directory) user runtime w = (.ok p, w')
  sources : SameSources p.settings.sysPath (p.settings.sources user) t t'
  stored : p.directory = some directory ∨
    ∀ category, DirectoryStore.load { directory := some directory } t' category =
      DirectoryStore.load { directory := some directory } t category

namespace Opening

variable {directory : Path} {user : UserScope} {runtime : List Path} {t t' t'' t''' : FileTree}
  {p q r : Project DirectoryStore} (h : Opening directory user runtime t p t')

include h

/-- The settings were loaded and merged, and the user's additions made.  They are loaded again wherever the same is
stored. -/
theorem exists_merged :
  ∃ stored merged, (∀ (elsewhere : Option Path) (w : Workspace Index),
      (∀ category, DirectoryStore.load { directory := some directory } w.files category =
        DirectoryStore.load { directory := some directory } t category) →
      ((setDirectory { store := ({ directory := elsewhere } : DirectoryStore) } (some directory)).loadStored w).1 =
        .ok stored) ∧
    (∀ elsewhere : Option Path,
      mergeValues (setDirectory { store := ({ directory := elsewhere } : DirectoryStore) } (some directory)) stored =
        (.ok (), merged)) ∧
    merged.store = { directory := merged.directory } ∧ IsDistinct merged.settings.scripts ∧
    p.settings = merged.settings.extended t (!stored.isEmpty) user runtime
  := by
  obtain ⟨elsewhere, w, w', -, -, rfl, -, hopened⟩ := h.opened
  obtain ⟨stored, merged, log, hload, hmerge, hsettings, -, -⟩ := exists_merged_of_openStored hopened
  obtain ⟨hstore, hscripts⟩ := of_mergeValues hmerge rfl List.Pairwise.nil
  refine ⟨stored, merged, ?_, fun _ => hmerge, hstore, hscripts, hsettings⟩
  intro _ w₁ hsame
  rw [← hload]
  apply fst_loadCategories_congr
  exact hsame

/-- The settings end with what the user adds. -/
theorem endsWith :
  p.settings.EndsWith t user
  := by
  obtain ⟨stored, merged, -, -, -, hscripts, hsettings⟩ := h.exists_merged
  rw [hsettings]
  exact Settings.endsWith_extended hscripts t _ user runtime

/-- The roots are what the settings are resolved into when every file is read anew. -/
theorem shows :
  p.modules.Show p.settings.modules (moduleAnew p.settings t) ∧
    p.scripts.Show p.settings.scripts (scriptAnew p.settings t)
  := by
  obtain ⟨elsewhere, w, w', hprovider, hanalysis, rfl, -, hopened⟩ := h.opened
  exact show_of_openStored hprovider hanalysis hopened

/-- The settings are saved when the project is opened next, if there is room for them. -/
theorem savedIn (hsound : t.IsSound) (hroom : ∀ place, p.directory = some place → HasRoom place t) :
  t'.IsSound ∧ ∀ place, p.directory = some place → SavedIn p.settings place t'
  := by
  obtain ⟨elsewhere, w, w', -, -, rfl, hstay, hopened⟩ := h.opened
  have hplaced := place_of_openStored hopened
  obtain ⟨hkept, hsaved⟩ := isKept_of_openStored hsound hopened fun place hplace => hroom place (hplaced ▸ hplace)
  exact ⟨hstay.1 hkept.isSound, fun place hplace => hstay.2 place (hsaved place hplace)⟩

/-! ### One opening after the other -/

/-- The next opening does not fail.  It has the saved settings with what the user adds again or, if these moved the
project, the settings as they were. -/
theorem exists_next (hsound : t.IsSound) (hroom : ∀ place, p.directory = some place → HasRoom place t)
    (elsewhere : Option Path) {w : Workspace Index} (hfiles : w.files = t') :
  ∃ q w', openStored ({ directory := elsewhere } : DirectoryStore) (some directory) user runtime w = (.ok q, w') ∧
    ((p.directory = some directory ∧ q.settings = p.settings.again directory t' user runtime) ∨
      (p.directory ≠ some directory ∧ q.settings = p.settings))
  := by
  obtain ⟨hsound', hsaved⟩ := h.savedIn hsound hroom
  by_cases hstays : p.directory = some directory
  · obtain ⟨q, w', hopened, hsettings⟩ := exists_openStored_of_savedIn (hfiles ▸ hsaved directory hstays)
      { directory := elsewhere } user runtime
    rw [hfiles] at hsettings
    exact ⟨q, w', hopened, .inl ⟨hstays, hsettings⟩⟩
  · obtain ⟨stored, merged, hload, hmerge, hstore, -, hsettings⟩ := h.exists_merged
    have hload' := hload elsewhere w (hfiles ▸ h.stored.resolve_left hstays)
    have hmoved : merged.directory = p.directory :=
      (congrArg (fun s : Settings => s.projectSettings.directory) hsettings).symm
    have hready (place : Path) (hplace : merged.directory = some place) :
        ∃ here there, IsReady place w.files here there := by
      obtain ⟨here, there, hready, -⟩ := hsaved place (hmoved ▸ hplace)
      exact ⟨here, there, hfiles ▸ hready⟩
    obtain ⟨q, w', hopened, hq⟩ := exists_openStored_of_merged hload' (hmerge elsewhere) hstore hready user runtime
    refine ⟨q, w', hopened, .inr ⟨hstays, ?_⟩⟩
    have hsources := h.sources
    rw [hsettings] at hsources
    rw [hq, hsettings, hfiles]
    exact Settings.extended_congr hsound hsources (user.files_subset_sources _)

section Next

variable (hsound : t.IsSound) (hroom : ∀ place, p.directory = some place → HasRoom place t)
  (h' : Opening directory user runtime t' q t'')

include hsound hroom h'

/-- The settings of the next opening are those that were saved with what the user adds again or, if these moved the
project, the settings as they were. -/
theorem settings_next :
  (p.directory = some directory ∧ q.settings = p.settings.again directory t' user runtime) ∨
    (p.directory ≠ some directory ∧ q.settings = p.settings)
  := by
  obtain ⟨elsewhere, w, w', -, -, hfiles, -, hopened⟩ := h'.opened
  obtain ⟨q', w'', hopened', hsettings⟩ := h.exists_next hsound hroom elsewhere hfiles
  cases hopened.symm.trans hopened'
  exact hsettings

/-- The next opening has room for its settings. -/
theorem room_next :
  ∀ place, q.directory = some place → HasRoom place t'
  := by
  intro place hplace
  obtain ⟨here, there, hready, -⟩ : SavedIn p.settings place t' := by
    apply (h.savedIn hsound hroom).2
    rw [← hplace, Project.directory, Project.directory]
    rcases h.settings_next hsound hroom h' with ⟨hstays, hsettings⟩ | ⟨-, hsettings⟩
    · rw [hsettings]
      exact hstays
    · rw [hsettings]
  exact hready.hasRoom

/-- The next opening finds the same roots. -/
theorem equal_next :
  p.modules.Equal q.modules ∧ p.scripts.Equal q.scripts
  := by
  obtain ⟨hmodules, hscripts⟩ := h.shows
  obtain ⟨hmodules', hscripts'⟩ := h'.shows
  have hsound' := (h.savedIn hsound hroom).1
  obtain ⟨hfirst, hlastModules, hlastScripts⟩ : SameFirst p.settings.sysPath q.settings.sysPath ∧
      SameLast p.settings.modules q.settings.modules ∧ SameLast p.settings.scripts q.settings.scripts := by
    rcases h.settings_next hsound hroom h' with ⟨-, hsettings⟩ | ⟨-, hsettings⟩
    · have hlooked := user.files_subset_sources p.settings
      rw [hsettings]
      exact ⟨h.endsWith.sameFirst_again directory t' runtime,
        h.endsWith.modules_again hsound hsound' h.sources hlooked directory runtime,
        h.endsWith.scripts_again hsound hsound' h.sources hlooked directory runtime⟩
    · rw [hsettings]
      exact ⟨fun _ _ => rfl, fun _ _ => rfl, fun _ _ => rfl⟩
  constructor
  · apply hmodules.equal hmodules' hlastModules
    intro name hname
    apply moduleAnew_eq h.sources hfirst hsound hsound'
    intro module hmodule
    exact List.subset_append_of_subset_right _ fun path hpath =>
      List.mem_flatMap.mpr ⟨name, hname, List.mem_flatMap.mpr ⟨module, hmodule, hpath⟩⟩
  · apply hscripts.equal hscripts' hlastScripts
    intro path hpath
    apply scriptAnew_eq h.sources hfirst hsound hsound'
    exact List.mem_append_left _ (List.mem_append_right _ hpath)

/-- The opening after the next one leaves the settings that the next one leaves. -/
theorem settings_after (h'' : Opening directory user runtime t'' r t''') :
  r.settings = q.settings
  := by
  have hsound' := (h.savedIn hsound hroom).1
  have hroom' := h.room_next hsound hroom h'
  have hsettings := h.settings_next hsound hroom h'
  have hsettings' := h'.settings_next hsound' hroom' h''
  rcases hsettings with ⟨-, hsettings⟩ | ⟨hmoves, hsettings⟩
  · have hstays : q.directory = some directory := by
      rw [Project.directory, hsettings]
      rfl
    obtain ⟨-, hsettings'⟩ := hsettings'.resolve_right fun hmoves => hmoves.1 hstays
    have hsources' := h'.sources
    rw [hsettings] at hsources' hsettings' ⊢
    rw [hsettings']
    exact h.endsWith.again_again hsound hsound' (h'.savedIn hsound' hroom').1 h.sources
      (user.files_subset_sources _) hsources' (user.files_subset_sources _)
  · have hmoves' : q.directory ≠ some directory := by
      rwa [Project.directory, hsettings]
    exact (hsettings'.resolve_left fun hstays => hmoves' hstays.1).2

end Next

end Opening

/-! ### Many openings -/

/-- Openings of the project of a directory, each over the files that the one before left. -/
inductive Openings (directory : Path) (user : UserScope) (runtime : List Path) :
    FileTree → List (Project DirectoryStore) → FileTree → Prop where
  | done (t : FileTree) : Openings directory user runtime t [] t
  | next {t t' t'' : FileTree} {p : Project DirectoryStore} {ps : List (Project DirectoryStore)}
      (first : Opening directory user runtime t p t')
      (rest : Openings directory user runtime t' ps t'') : Openings directory user runtime t (p :: ps) t''

/-- All openings find the roots that the first one finds, all from the second one on leave the same settings, and the
next one does not fail either, if there is room for the settings at the beginning. -/
theorem Openings.converge {directory : Path} {user : UserScope} {runtime : List Path} {t t' : FileTree}
    {p : Project DirectoryStore}
    {ps : List (Project DirectoryStore)} (h : Openings directory user runtime t (p :: ps) t') (hsound : t.IsSound)
    (hroom : ∀ place, p.directory = some place → HasRoom place t) :
  (∀ q ∈ ps, p.modules.Equal q.modules ∧ p.scripts.Equal q.scripts) ∧
  (∀ q qs, ps = q :: qs → ∀ r ∈ qs, r.settings = q.settings) ∧
  ∀ (elsewhere : Option Path) (w : Workspace Index), w.files = t' →
    ∃ q w', openStored ({ directory := elsewhere } : DirectoryStore) (some directory) user runtime w = (.ok q, w')
  := by
  induction ps generalizing t p with
  | nil =>
    obtain - | ⟨hfirst, hrest⟩ := h
    cases hrest
    refine ⟨nofun, nofun, fun elsewhere w hfiles => ?_⟩
    obtain ⟨q, w', hopened, -⟩ := hfirst.exists_next hsound hroom elsewhere hfiles
    exact ⟨q, w', hopened⟩
  | cons q qs ih =>
    obtain - | ⟨hfirst, hrest⟩ := h
    obtain - | ⟨hsecond, hlater⟩ := id hrest
    obtain ⟨hequal, hsettings, hopens⟩ := ih hrest (hfirst.savedIn hsound hroom).1 (hfirst.room_next hsound hroom hsecond)
    refine ⟨?_, ?_, hopens⟩
    · have hnext := hfirst.equal_next hsound hroom hsecond
      rw [List.forall_mem_cons]
      exact ⟨hnext, fun r hr => ⟨hnext.1.trans (hequal r hr).1, hnext.2.trans (hequal r hr).2⟩⟩
    · rintro _ _ ⟨⟩ r hr
      obtain - | ⟨hthird, -⟩ := hlater
      · cases hr
      · have hafter := hfirst.settings_after hsound hroom hsecond hthird
        rcases List.mem_cons.mp hr with rfl | hr
        · exact hafter
        · exact (hsettings _ _ rfl r hr).trans hafter

end Parsed

/-! ### Modules, scripts and repeats -/

section Scenes

open scoped Grammar

/-- Opens the project of a directory as often as told, and tells whether this never fails, leaves the sources alone and
does not move the project. -/
def opensAgain (directory : Path) (user : UserScope) : Nat → FileTree → Bool
  | 0, _ => true
  | count + 1, t =>
    let opened := openStored ({} : DirectoryStore) (some directory) user [] (.unread t)
    opened.1.toOption.any fun p =>
      p.directory.map Path.spelling == some directory.spelling &&
        decide (SameSources p.settings.sysPath (p.settings.sources user) t opened.2.files) &&
        opensAgain directory user count opened.2.files

theorem exists_openings_of_opensAgain {directory : Path} {user : UserScope} {count : Nat} {t : FileTree}
    (h : opensAgain directory user count t = true) :
  ∃ ps t', Openings directory user [] t ps t' ∧ ps.length = count ∧ ∀ p ∈ ps, p.directory = some directory
  := by
  induction count generalizing t with
  | zero => exact ⟨[], t, .done t, rfl, nofun⟩
  | succ count ih =>
    obtain ⟨p, w, hopened, hchecked⟩ := exists_of_opened h
    obtain ⟨hfirst, hrest⟩ := Bool.and_eq_true_iff.mp hchecked
    obtain ⟨hdirectory, hsources⟩ := Bool.and_eq_true_iff.mp hfirst
    rw [hopened] at hsources hrest
    obtain ⟨place, hplace, hspelled⟩ := Option.map_eq_some_iff.mp (eq_of_beq hdirectory)
    obtain rfl : place = directory := congrArg Path.mk hspelled
    obtain ⟨ps, t', hopenings, hlength, hstay⟩ := ih hrest
    have hopening : Opening place user [] t p w.files :=
      ⟨⟨none, .unread t, w, rfl, rfl, rfl, ⟨id, fun _ => id⟩, hopened⟩, of_decide_eq_true hsources, .inl hplace⟩
    exact ⟨p :: ps, t', .next hopening hopenings, congrArg (· + 1) hlength, List.forall_mem_cons.mpr ⟨hplace, hstay⟩⟩

/-- A module and, outside of its directory, a script. -/
def strewn : FileTree :=
  { entries := [(["w"], .directory), (["w", "m.py"], .file "x = 1\n".toUTF8 1), (["s.py"], .file "y = 1\n".toUTF8 1)] }

/-- The module, given twice and with its file, the script, and an empty entry beside the directory to look in. -/
def repeated : UserScope where
  moduleNames := ["m", "m"]
  files := [⟨"/w/m.py"⟩, ⟨"/s.py"⟩]
  addToSearchPath := [⟨"/w"⟩, ⟨""⟩]

/-- Three openings with repeated additions find the same roots, and the third leaves the settings of the second. -/
theorem Openings.converge_strewn :
  ∃ p q r t, Openings ⟨"/p"⟩ repeated [] strewn [p, q, r] t ∧ p.modules.Equal r.modules ∧ p.scripts.Equal r.scripts ∧
    r.settings = q.settings
  := by
  have hsound : strewn.IsSound := FileTree.isSound_of_entries (by decide) rfl (List.forall_mem_nil _)
  have hopens : opensAgain ⟨"/p"⟩ repeated 3 strewn = true := by decide +kernel
  have hspace : HasRoom ⟨"/p"⟩ strewn := by decide +kernel
  obtain ⟨ps, t, hopenings, hlength, hstay⟩ := exists_openings_of_opensAgain hopens
  obtain ⟨p, q, r, rfl⟩ := List.length_eq_three.mp hlength
  have hroom (place : Path) (hplace : p.directory = some place) : HasRoom place strewn :=
    Option.some.inj ((hstay p List.mem_cons_self).symm.trans hplace) ▸ hspace
  obtain ⟨hequal, hsettings, -⟩ := hopenings.converge hsound hroom
  have hlast := hequal r (List.mem_cons_of_mem _ List.mem_cons_self)
  exact ⟨p, q, r, t, hopenings, hlast.1, hlast.2, hsettings q [r] rfl r List.mem_cons_self⟩

/-! ### A directory that is made, a link between settings, and a directory that takes in the backup of another -/

/-- A project to be opened: the files, its directory and what a user adds. -/
structure Scene where
  files : FileTree
  directory : Path
  user : UserScope

/-- An entry of the search path leads through the project's directory, which is not there yet. -/
def passing : Scene where
  files := strewn
  directory := ⟨"/w/p"⟩
  user := { moduleNames := ["m"], addToSearchPath := [⟨"/w/p/.."⟩] }

/-- A link leads from the file of the modules to that of the scripts, which is not there yet. -/
def crossing : Scene where
  files := { entries := strewn.entries ++ [(["p"], .directory), (["p", "modules.json"], .link "scripts.json")] }
  directory := ⟨"/p"⟩
  user := { moduleNames := ["m"], files := [⟨"/s.py"⟩], addToSearchPath := [⟨"/w"⟩] }

/-- The settings move the project to the directory whose backup it is opened in. -/
def moving : Scene where
  files := { entries := strewn.entries ++ [(["p"], .directory), (["p", "modules.json"], .file "[\"n\"]".toUTF8 1),
      (["p", "backup"], .directory), (["p", "backup", "modules.json"], .file "[\"m\"]".toUTF8 1),
      (["p", "backup", "project_settings.json"], .file "\x7b\"project_directory\": \"/p\"\x7d".toUTF8 1)] }
  directory := ⟨"/p/backup"⟩
  user := { addToSearchPath := [⟨"/w"⟩] }

/-- The second opening finds other modules than the first, though no source changes and all settings are saved. -/
def Scene.FindsOthers (s : Scene) : Prop :=
  ∃ p q w w', openStored ({} : DirectoryStore) (some s.directory) s.user [] (.unread s.files) = (.ok p, w) ∧
    openStored ({} : DirectoryStore) (some s.directory) s.user [] (.unread w.files) = (.ok q, w') ∧
    (∀ e ∈ strewn.entries, w.files.entry? e.1 = some e.2) ∧ ¬ p.modules.Equal q.modules

/-- Whether roots differ in one of the names of the module and the script. -/
def differ (r r' : Roots String) : Bool :=
  ["m", "/s.py"].any fun name =>
    r.nodes.contains name != r'.nodes.contains name || r.failures.contains name != r'.failures.contains name

/-- Whether two openings leave the sources alone and differ in the modules that they find. -/
def Scene.findsOthers (s : Scene) : Bool :=
  let opened (files : FileTree) := openStored ({} : DirectoryStore) (some s.directory) s.user [] (.unread files)
  (opened s.files).1.toOption.any fun p =>
    decide (∀ e ∈ strewn.entries, (opened s.files).2.files.entry? e.1 = some e.2) &&
      (opened (opened s.files).2.files).1.toOption.any fun q => differ p.modules q.modules

theorem Scene.findsOthers_of_eq_true {s : Scene} (h : s.findsOthers = true) :
  s.FindsOthers
  := by
  obtain ⟨p, w, hopened, hfirst⟩ := exists_of_opened h
  obtain ⟨hkept, hsecond⟩ := Bool.and_eq_true_iff.mp hfirst
  rw [hopened] at hkept hsecond
  obtain ⟨q, w', hopened', hdiffer⟩ := exists_of_opened hsecond
  refine ⟨p, q, w, w', hopened, hopened', of_decide_eq_true hkept, fun hequal => ?_⟩
  obtain ⟨name, -, hname⟩ := List.any_eq_true.mp hdiffer
  rw [(hequal.contains name).1, (hequal.contains name).2, bne_self_eq_false, bne_self_eq_false] at hname
  cases hname

/-- Each of them finds other modules when it is opened again. -/
theorem not_equal_reopened :
  passing.FindsOthers ∧ crossing.FindsOthers ∧ moving.FindsOthers
  :=
  ⟨Scene.findsOthers_of_eq_true (by decide +kernel), Scene.findsOthers_of_eq_true (by decide +kernel),
    Scene.findsOthers_of_eq_true (by decide +kernel)⟩

end Scenes

end Project

end CallGraph
