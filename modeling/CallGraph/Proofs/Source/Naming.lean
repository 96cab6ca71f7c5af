import CallGraph.Proofs.Source.Bindings
import CallGraph.Proofs.Source.Dotted
import CallGraph.Proofs.Source.Editing
import CallGraph.Source.Grammar

/-!
# Names that lead to a file, and the name that the file has

A module is found by any name that leads to its file from an entry of the search path.  The file has one name only:
from the place where it really stands, below the first entry from which only packages lead there.  Both are the same
where no link stands on the way, when the entry that the module was found below is that one.
-/

namespace CallGraph.Source

variable {files : FileTree}

/-- A place lies below an entry of a search path, with nothing but packages in between. -/
def LiesBelow (files : FileTree) (place : List String) (e : Path) : Prop :=
  ∃ root more, files.lookup e = .ok (root, .directory) ∧ place = root ++ more ∧ more ≠ [] ∧
    packagesBetween files root more = true

/-! ### Names from entries -/

/-- What packages lead to does not matter for them. -/
theorem packagesBetween_concat (root more : List String) (name name' : String) :
  packagesBetween files root (more ++ [name]) = packagesBetween files root (more ++ [name'])
  := by
  induction more generalizing root with
  | nil => rfl
  | cons first more ih =>
    have hcons (last : String) : packagesBetween files root (first :: more ++ [last]) =
        (files.isPackage (Path.ofNames (root ++ [first])) && packagesBetween files (root ++ [first]) (more ++ [last])) := by
      cases more <;> rfl
    rw [hcons, hcons, ih]

theorem liesBelow_concat {place : List String} {name name' : String} {e : Path}
    (h : LiesBelow files (place ++ [name]) e) :
  LiesBelow files (place ++ [name']) e
  := by
  obtain ⟨root, more, hroot, hplace, hmore, hpackages⟩ := h
  cases more using List.reverseRecOn with
  | nil => exact absurd rfl hmore
  | append_singleton more last =>
    rw [← List.append_assoc] at hplace
    obtain ⟨rfl, -⟩ := List.append_inj' hplace rfl
    refine ⟨root, more ++ [name'], hroot, List.append_assoc _ _ _, by simp, ?_⟩
    rw [← hpackages]
    exact packagesBetween_concat root more name' last

/-- Below an entry, what packages lead to is named by the names on the way. -/
theorem nameFrom?_append (hsound : files.IsSound) {e : Path} {root more : List String}
    (hroot : files.lookup e = .ok (root, .directory)) (hmore : more ≠ [])
    (hplace : ∀ name ∈ root ++ more, IsEntryName name) (hpackages : packagesBetween files root more = true)
    {name : String} (hname : dropEnding ".py" (".".intercalate more) = name) (hnonempty : name.isEmpty = false) :
  nameFrom? files (root ++ more) e = some name
  := by
  have hnames : ∀ name ∈ root, IsEntryName name := (hsound.stands_of_lookup hroot).2.1
  have hbelow : (root.length < (root ++ more).length && root.isPrefixOf (root ++ more)) = true := by
    rw [Bool.and_eq_true, decide_eq_true_eq, List.isPrefixOf_iff_prefix, List.length_append]
    exact ⟨Nat.lt_add_of_pos_right (List.length_pos_iff.mpr hmore), List.prefix_append _ _⟩
  rw [nameFrom?, FileTree.canonical, hroot]
  change nameBelow? files (Path.ofNames root) (Path.ofNames (root ++ more)) = _
  rw [nameBelow?, Path.names_ofNames hplace, Path.names_ofNames hnames, if_pos hbelow, List.drop_left]
  dsimp only
  rw [if_pos hpackages, hname, hnonempty]
  rfl

theorem isEmpty_intercalate_concat (package : List String) {last : String} (hlast : last ≠ "") :
  (".".intercalate (package ++ [last])).isEmpty = false
  := by
  obtain ⟨before, hspelled, -⟩ := intercalate_concat package last
  rw [hspelled]
  simp [hlast]

/-- A dotted name with more parts in front is another one. -/
theorem intercalate_append_ne {parts more : List String} (hparts : parts ≠ []) (hmore : more ≠ []) :
  ".".intercalate (parts ++ more) ≠ ".".intercalate more
  := by
  intro heq
  rw [String.intercalate_append_of_ne_nil hparts hmore] at heq
  have hlength := congrArg String.length heq
  simp only [String.length_append] at hlength
  have hdot : ".".length = 1 := rfl
  omega

/-- Below an entry, a source file is named by the names on the way. -/
theorem nameFrom?_source (hsound : files.IsSound) {e : Path} {root package : List String} {stem : String}
    (hroot : files.lookup e = .ok (root, .directory)) (hstem : stem ≠ "")
    (hplace : ∀ name ∈ root ++ (package ++ [stem ++ ".py"]), IsEntryName name)
    (hpackages : packagesBetween files root (package ++ [stem ++ ".py"]) = true) :
  nameFrom? files (root ++ (package ++ [stem ++ ".py"])) e = some (".".intercalate (package ++ [stem]))
  := by
  apply nameFrom?_append hsound hroot (by simp) hplace hpackages
  · rw [intercalate_concat_append, dropEnding_append]
  · exact isEmpty_intercalate_concat package hstem

/-- So is a package, unless its own name is taken for the ending of a source file. -/
theorem nameFrom?_package (hsound : files.IsSound) {e : Path} {root package : List String} {last : String}
    (hroot : files.lookup e = .ok (root, .directory)) (hlast : IsNamePart last) (hne : last ≠ "py")
    (hplace : ∀ name ∈ root ++ (package ++ [last]), IsEntryName name)
    (hpackages : packagesBetween files root (package ++ [last]) = true) :
  nameFrom? files (root ++ (package ++ [last])) e = some (".".intercalate (package ++ [last]))
  := by
  apply nameFrom?_append hsound hroot (by simp) hplace hpackages
  · exact dropEnding_intercalate package hlast.dotless (by decide) hne
  · exact isEmpty_intercalate_concat package hlast.nonempty

/-- An entry that names a file has it below itself, with packages in between. -/
theorem liesBelow_of_nameFrom? (hsound : files.IsSound) {place : List String} {entry : FileTree.Entry}
    (hentry : files.entry? place = some entry) (hplace : ∀ name ∈ place, IsEntryName name) {e : Path} {name : String}
    (h : nameFrom? files place e = some name) :
  LiesBelow files place e
  := by
  by_cases hroot : ∃ root, files.lookup e = .ok (root, .directory)
  · obtain ⟨root, hroot⟩ := hroot
    have hnames : ∀ name ∈ root, IsEntryName name := (hsound.stands_of_lookup hroot).2.1
    rw [nameFrom?, FileTree.canonical, hroot] at h
    change nameBelow? files (Path.ofNames root) (Path.ofNames place) = _ at h
    rw [nameBelow?, Path.names_ofNames hplace, Path.names_ofNames hnames] at h
    split at h
    case isFalse => cases h
    case isTrue hbelow =>
      rw [Bool.and_eq_true, decide_eq_true_eq, List.isPrefixOf_iff_prefix] at hbelow
      obtain ⟨hlength, more, rfl⟩ := hbelow
      rw [List.drop_left] at h
      dsimp only at h
      split at h
      case isFalse => cases h
      case isTrue hpackages =>
        refine ⟨root, more, hroot, rfl, ?_, hpackages⟩
        rintro rfl
        simp at hlength
  · rw [not_exists] at hroot
    rw [nameFrom?_eq_none hsound hentry hplace hroot] at h
    cases h

/-- An entry that does not have a file below itself gives it no name. -/
theorem nameFrom?_of_not_liesBelow (hsound : files.IsSound) {place : List String} {entry : FileTree.Entry}
    (hentry : files.entry? place = some entry) (hplace : ∀ name ∈ place, IsEntryName name) {e : Path}
    (h : ¬ LiesBelow files place e) :
  nameFrom? files place e = none
  := by
  cases hfrom : nameFrom? files place e with
  | none => rfl
  | some found => exact absurd (liesBelow_of_nameFrom? hsound hentry hplace hfrom) h

/-- The name of the module in a file is the one that the first entry gives. -/
theorem moduleNameOf_of_lookup {searchPath : List Path} {p : Path} {place : List String} {entry : FileTree.Entry}
    (h : files.lookup p = .ok (place, entry)) :
  moduleNameOf files searchPath p =
    match searchPath.findSome? (nameFrom? files place) with
    | some name => dropEnding ".__init__" name
    | none => stemOf p
  := by
  rw [moduleNameOf, moduleName?, FileTree.canonical, h]
  rfl

/-! ### One file below several entries -/

section Places

variable {name : String} {package : List String} {last : String} (hname : IsModuleName name package last)

include hname

/-- The steps to the file of a module tell its stem, as the path that it is found at does. -/
theorem moduleSteps_of_moduleFileIn {e p : Path} {root steps : List String}
    (hp : Survey.moduleFileIn files name e = some p) (hroot : files.lookup e = .ok (root, .directory))
    (hcomponents : p.components = e.components ++ steps.map .name) :
  steps ∈ Survey.moduleSteps package last ∧
    (stemOf p = last ∧ steps = package ++ [last ++ ".py"] ∨ stemOf p = "__init__")
  := by
  have hspelled := (FileTree.spelled_of_find (FileTree.find_of_lookup hroot)).2
  have hsame {names : List String} (h : p.components = e.components ++ names.map .name) : steps = names := by
    have hmap := List.append_cancel_left (hcomponents.symm.trans h)
    exact List.map_injective_iff.mpr (fun _ _ => Path.Component.name.inj) hmap
  rcases Survey.cases_of_moduleFileIn hname hspelled hp with ⟨h, hstem⟩ | ⟨h, hstem⟩
  · exact ⟨by simp [Survey.moduleSteps, hsame h], .inl ⟨hstem, hsame h⟩⟩
  · exact ⟨by simp [Survey.moduleSteps, hsame h], .inr hstem⟩

variable (hlast : last ≠ "__init__")

include hlast

/-- Below another directory, the file of a module has another name than the one that leads to it. -/
theorem dropEnding_eq_iff {root root' before : List String} {stem : String} {steps : List String}
    (hsteps : steps ∈ Survey.moduleSteps package last) (hsame : root ++ steps = root' ++ (before ++ [stem ++ ".py"])) :
  dropEnding ".__init__" (".".intercalate (before ++ [stem])) = name ↔ root' = root
  := by
  have hdotless := (hname.parts last (by simp)).dotless
  -- The module's name is made of what of the place is left below the other directory.
  obtain ⟨rest, hrest, hmodule⟩ : ∃ rest, root' ++ rest = root ++ (package ++ [last]) ∧
      dropEnding ".__init__" (".".intercalate (before ++ [stem])) =
        if rest = [] then "__init__" else ".".intercalate rest := by
    simp only [Survey.moduleSteps, List.mem_cons, List.not_mem_nil, or_false] at hsteps
    rcases hsteps with rfl | rfl
    · have hsame : (root ++ package) ++ [last ++ ".py"] = (root' ++ before) ++ [stem ++ ".py"] := by
        rw [List.append_assoc, List.append_assoc, hsame]
      obtain ⟨hbefore, hstem⟩ := List.append_inj' hsame rfl
      obtain rfl : last = stem := (String.append_left_inj ".py").mp (List.cons.inj hstem).1
      refine ⟨before ++ [last], by rw [← List.append_assoc, ← hbefore, List.append_assoc], ?_⟩
      rw [if_neg (by simp), dropEnding_marker before hdotless hlast]
    · have hsame : (root ++ (package ++ [last])) ++ [packageMarker] = (root' ++ before) ++ [stem ++ ".py"] := by
        rw [List.append_assoc, List.append_assoc, List.append_assoc, ← hsame]
        rfl
      obtain ⟨hbefore, hstem⟩ := List.append_inj' hsame rfl
      obtain rfl : "__init__" = stem := (String.append_left_inj ".py").mp (List.cons.inj hstem).1
      refine ⟨before, hbefore.symm, ?_⟩
      cases before with
      | nil => decide
      | cons first more =>
        have hspelled : ".".intercalate (first :: more ++ ["__init__"]) =
            ".".intercalate (first :: more) ++ ".__init__" := by
          rw [String.intercalate_append_of_ne_nil (by simp) (by simp), String.intercalate_singleton,
            String.append_assoc]
          rfl
        rw [if_neg (by simp), hspelled, dropEnding_append]
  rw [hmodule]
  constructor
  · intro heq
    rcases List.append_eq_append_iff.mp hrest with ⟨more, hroot, hparts⟩ | ⟨more, hroot, hparts⟩
    · -- The other directory is above this one, so its name is longer.
      by_contra hne
      have hmore : more ≠ [] := by
        rintro rfl
        exact hne (hroot.trans (List.append_nil _)).symm
      rw [hparts, if_neg (by simp), hname.spelled] at heq
      exact intercalate_append_ne hmore (by simp) heq
    · -- The other directory is below this one, so its name is shorter, if anything is left of it.
      by_contra hne
      have hmore : more ≠ [] := by
        rintro rfl
        exact hne (hroot.trans (List.append_nil _))
      split at heq
      case isTrue =>
        have hinit := lastPart_intercalate package hdotless
        rw [← hname.spelled, ← heq] at hinit
        exact hlast (String.toList_injective (hinit.symm.trans (by decide)))
      case isFalse hrest =>
        rw [hname.spelled, hparts] at heq
        exact intercalate_append_ne hmore hrest heq.symm
  · rintro rfl
    rw [List.append_cancel_left hrest, if_neg (by simp), hname.spelled]

/-- An entry that the file of a module lies below names it, and by this name only from the same directory. -/
theorem exists_nameFrom? (hsound : files.IsSound) {root steps : List String}
    (hsteps : steps ∈ Survey.moduleSteps package last)
    {entry : FileTree.Entry} (hentry : files.entry? (root ++ steps) = some entry)
    (hplace : ∀ name ∈ root ++ steps, IsEntryName name) {e : Path} (h : LiesBelow files (root ++ steps) e) :
  ∃ root' found, files.lookup e = .ok (root', .directory) ∧
    nameFrom? files (root ++ steps) e = some found ∧ (dropEnding ".__init__" found = name ↔ root' = root)
  := by
  obtain ⟨stem, package', hstem, hspelled⟩ : ∃ stem package', stem ≠ "" ∧ steps = package' ++ [stem ++ ".py"] := by
    simp only [Survey.moduleSteps, List.mem_cons, List.not_mem_nil, or_false] at hsteps
    rcases hsteps with rfl | rfl
    · exact ⟨last, package, (hname.parts last (by simp)).nonempty, rfl⟩
    · exact ⟨"__init__", package ++ [last], by decide, by simp; rfl⟩
  obtain ⟨root', more, hroot, hsame, hmore, hpackages⟩ := h
  cases more using List.reverseRecOn with
  | nil => exact absurd rfl hmore
  | append_singleton before name' =>
    have hlastName : root ++ package' ++ [stem ++ ".py"] = root' ++ before ++ [name'] := by
      rw [List.append_assoc, List.append_assoc, ← hspelled, hsame]
    obtain rfl : stem ++ ".py" = name' := (List.cons.inj (List.append_inj' hlastName rfl).2).1
    refine ⟨root', _, hroot, ?_, dropEnding_eq_iff hname hlast hsteps hsame⟩
    rw [hsame] at hplace ⊢
    exact nameFrom?_source hsound hroot hstem hplace hpackages

/-- A file that has its stem for the name of its module stands right in the entry that it is found below. -/
theorem liesBelow_of_stemOf {e p : Path} {root steps : List String}
    (hp : Survey.moduleFileIn files name e = some p) (hroot : files.lookup e = .ok (root, .directory))
    (hcomponents : p.components = e.components ++ steps.map .name) (hstem : stemOf p = name) :
  LiesBelow files (root ++ steps) e
  := by
  rcases (moduleSteps_of_moduleFileIn hname hp hroot hcomponents).2 with ⟨hlastPart, rfl⟩ | hmarker
  · obtain rfl : package = [] := by
      by_contra hpackage
      apply intercalate_append_ne hpackage (List.cons_ne_nil last [])
      rw [← hname.spelled, ← hstem, hlastPart, String.intercalate_singleton]
    exact ⟨root, _, hroot, rfl, by simp, rfl⟩
  · have hinit := lastPart_intercalate package (hname.parts last (by simp)).dotless
    rw [← hname.spelled, ← hstem, hmarker] at hinit
    exact absurd (String.toList_injective (hinit.symm.trans (by decide))) hlast

section File

variable (hsound : files.IsSound) {before after : List Path} {e p : Path} {root steps : List String}
  {octets : ByteArray} {modified : Nat} (hsteps : steps ∈ Survey.moduleSteps package last)
  (hroot : files.lookup e = .ok (root, .directory))
  (hlookup : files.lookup p = .ok (root ++ steps, .file octets modified))

include hsound hsteps hroot hlookup

/-- An entry that gives the file of a module the name of the module leads to the directory that it is found in,
where no entry leads below which the name leads nowhere. -/
theorem not_mem_of_nameFrom? (hnone : ∀ e' ∈ before, Survey.moduleFileIn files name e' = none) {e' : Path}
    {found : String} (hfound : nameFrom? files (root ++ steps) e' = some found)
    (hnamed : dropEnding ".__init__" found = name) :
  files.lookup e' = .ok (root, .directory) ∧ e' ∉ before
  := by
  obtain ⟨hentry, hplace, -⟩ := hsound.stands_of_lookup hlookup
  obtain ⟨root', found', hroot', hfound', hiff⟩ := exists_nameFrom? hname hlast hsound hsteps hentry hplace
    (liesBelow_of_nameFrom? hsound hentry hplace hfound)
  obtain rfl : found' = found := Option.some.inj (hfound'.symm.trans hfound)
  obtain rfl := hiff.mp hnamed
  refine ⟨hroot', fun hmem => ?_⟩
  have hsome := Survey.isSome_moduleFileIn hname hsound hroot' hsteps hentry
  rw [hnone e' hmem] at hsome
  cases hsome

/-- If a file has the name of its module from the first entry that gives it one, the entry that it is found below
has it below itself, and no entry before. -/
theorem liesBelow_of_findSome? (hnone : ∀ e' ∈ before, Survey.moduleFileIn files name e' = none) {found : String}
    (hfirst : (before ++ e :: after).findSome? (nameFrom? files (root ++ steps)) = some found)
    (hnamed : dropEnding ".__init__" found = name) :
  LiesBelow files (root ++ steps) e ∧ ∀ e' ∈ before, ¬ LiesBelow files (root ++ steps) e'
  := by
  obtain ⟨hentry, hplace, -⟩ := hsound.stands_of_lookup hlookup
  obtain ⟨before', e', after', hsplit, hfound, hunnamed⟩ := List.findSome?_eq_some_iff.mp hfirst
  obtain ⟨hroot', hnotBefore⟩ :=
    not_mem_of_nameFrom? hname hlast hsound hsteps hroot hlookup hnone hfound hnamed
  have hsubset : ∀ e'' ∈ before, e'' ∈ before' := by
    rcases List.append_eq_append_iff.mp hsplit with ⟨more, rfl, -⟩ | ⟨more, rfl, hrest⟩
    · exact fun e'' hmem => List.mem_append_left _ hmem
    · cases more with
      | nil => simp
      | cons first more =>
        obtain ⟨rfl, -⟩ := List.cons.inj hrest
        simp at hnotBefore
  constructor
  · obtain ⟨root'', more, hroot'', hmore⟩ := liesBelow_of_nameFrom? hsound hentry hplace hfound
    obtain ⟨rfl, -⟩ := Prod.mk.inj (Except.ok.inj (hroot''.symm.trans hroot'))
    exact ⟨_, more, hroot, hmore⟩
  · intro e'' hmem hlies
    obtain ⟨-, found'', -, hfound'', -⟩ := exists_nameFrom? hname hlast hsound hsteps hentry hplace hlies
    rw [hunnamed e'' (hsubset e'' hmem)] at hfound''
    cases hfound''

/-- If the entry that a file is found below has it below itself, and no entry before, it gives the first name, and
this is that of the module. -/
theorem findSome?_of_liesBelow (hlies : LiesBelow files (root ++ steps) e)
    (hothers : ∀ e' ∈ before, ¬ LiesBelow files (root ++ steps) e') :
  ∃ found, (before ++ e :: after).findSome? (nameFrom? files (root ++ steps)) = some found ∧
    dropEnding ".__init__" found = name
  := by
  obtain ⟨hentry, hplace, -⟩ := hsound.stands_of_lookup hlookup
  obtain ⟨root', found, hroot', hfound, hiff⟩ := exists_nameFrom? hname hlast hsound hsteps hentry hplace hlies
  obtain ⟨rfl, -⟩ := Prod.mk.inj (Except.ok.inj (hroot'.symm.trans hroot))
  have hunnamed : before.findSome? (nameFrom? files (root' ++ steps)) = none :=
    List.findSome?_eq_none_iff.mpr fun e' he' => nameFrom?_of_not_liesBelow hsound hentry hplace (hothers e' he')
  refine ⟨found, ?_, hiff.mpr rfl⟩
  rw [List.findSome?_append, hunnamed, Option.none_or, List.findSome?_cons, hfound]

end File

/-- The file that a name leads to, with no link on the way from the entry, has this name exactly if it lies below the
entry with packages in between, and below no entry before. -/
theorem moduleNameOf_eq_iff (hsound : files.IsSound) {before after : List Path} {e p : Path} {root steps : List String}
    {entry : FileTree.Entry} (hnone : ∀ e' ∈ before, Survey.moduleFileIn files name e' = none)
    (hp : Survey.moduleFileIn files name e = some p) (hroot : files.lookup e = .ok (root, .directory))
    (hcomponents : p.components = e.components ++ steps.map .name)
    (hlookup : files.lookup p = .ok (root ++ steps, entry)) :
  moduleNameOf files (before ++ e :: after) p = name ↔
    LiesBelow files (root ++ steps) e ∧ ∀ e' ∈ before, ¬ LiesBelow files (root ++ steps) e'
  := by
  obtain ⟨octets, modified, rfl⟩ : ∃ octets modified, entry = .file octets modified := by
    have hisFile := isFile_of_moduleFileIn hp
    rw [FileTree.isFile, hlookup] at hisFile
    cases entry with
    | file octets modified => exact ⟨octets, modified, rfl⟩
    | directory => cases hisFile
    | link target => exact absurd rfl ((hsound.stands_of_lookup hlookup).2.2 target)
  obtain ⟨hsteps, -⟩ := moduleSteps_of_moduleFileIn hname hp hroot hcomponents
  rw [moduleNameOf_of_lookup hlookup]
  constructor
  · intro heq
    cases hfirst : (before ++ e :: after).findSome? (nameFrom? files (root ++ steps)) with
    | none =>
      -- No entry gives a name, so the stem is the name; but then the entry that the file is found below gives one.
      rw [hfirst] at heq
      have hlies := liesBelow_of_stemOf hname hlast hp hroot hcomponents heq
      obtain ⟨hentry, hplace, -⟩ := hsound.stands_of_lookup hlookup
      obtain ⟨-, found, -, hfound, -⟩ := exists_nameFrom? hname hlast hsound hsteps hentry hplace hlies
      have hnowhere := List.findSome?_eq_none_iff.mp hfirst e (by simp)
      rw [hfound] at hnowhere
      cases hnowhere
    | some found =>
      rw [hfirst] at heq
      exact liesBelow_of_findSome? hname hlast hsound hsteps hroot hlookup hnone hfirst heq
  · rintro ⟨hlies, hothers⟩
    obtain ⟨found, hfirst, hnamed⟩ : ∃ found, (before ++ e :: after).findSome? (nameFrom? files (root ++ steps)) =
        some found ∧ dropEnding ".__init__" found = name :=
      findSome?_of_liesBelow hname hlast hsound hsteps hroot hlookup hlies hothers
    rw [hfirst]
    exact hnamed

end Places

/-! ### What a name resolves to -/

section Resolving

/-- The first entry of a search path below which the file of a module is found. -/
theorem exists_entry_of_locate {m : Type → Type} {s : Survey m} {name : String} {p : Path}
    (h : s.locate name none = some p) :
  ∃ before e after, s.searchPath = before ++ e :: after ∧ (∀ e' ∈ before, Survey.moduleFileIn s.files name e' = none) ∧
    Survey.moduleFileIn s.files name e = some p
  := by
  unfold Survey.locate at h
  split at h
  case isTrue => cases h
  case isFalse =>
    rw [Option.toList_none, List.append_nil] at h
    obtain ⟨before, e, after, hsplit, hfound, hnone⟩ := List.findSome?_eq_some_iff.mp h
    exact ⟨before, e, after, hsplit, hnone, hfound⟩

/-- The search path in use is the one that a name was resolved on. -/
theorem searchPathFor_beq (inUse : List Path) (name : String) (searchPath : List Path) :
  (searchPathFor inUse (.resolve name searchPath) == searchPath) = true
  := by
  change ((if _ then _ else _) == searchPath) = true
  split
  case isTrue h => exact h
  case isFalse => exact BEq.rfl

variable [Parser]

/-- A module that a name resolves to is the one that the name is located at. -/
theorem exists_locate_of_resolve {searchPath : List Path} {name : String} {d : Definition}
    (h : (fresh files searchPath).resolve name = .ok (some d)) (hmodule : d.isModule = true) :
  ∃ p, (fresh files searchPath).locate name none = some p
  := by
  unfold Survey.resolve at h
  split at h
  case h_1 path hlocate => exact ⟨path, hlocate⟩
  case h_2 =>
    split at h
    case h_1 => cases h
    case h_2 module attr _ =>
      split at h
      case h_1 => cases h
      case h_2 path _ =>
        obtain ⟨o, ho, hfound⟩ := exists_of_bind h
        have hmem : d ∈ o.definitionsNamed 0 (String.ofList attr) := List.mem_of_mem_head? (Except.ok.inj hfound)
        obtain ⟨i, s, hs, hparent, -, rfl⟩ := Outline.exists_scope_of_definitionsNamed hmem
        rw [Outline.isModule_definitionOf (isRegular_of_outlineNow ho) hs hparent] at hmodule
        cases hmodule

theorem module_of_outlineNow {searchPath : List Path} {p : Path} {o : Outline}
    (h : outlineNow files searchPath p = .ok o) :
  o.module = moduleNameOf files searchPath p
  := by
  obtain ⟨source, _, rfl⟩ := exists_text_of_outlineNow h
  rfl

/-- A name that is located is resolved by reading the file there. -/
theorem Index.answer_resolve {x : Index} {name : String} {searchPath : List Path} {p : Path}
    (h : (fresh files (x.prepared (.resolve name searchPath)).searchPath).locate name none = some p) :
  Index.answer files (.resolve name searchPath) x =
    ((Index.load files p (x.prepared (.resolve name searchPath))).1.map fun _ => some (moduleDefinition name p),
      (Index.load files p (x.prepared (.resolve name searchPath))).2)
  := by
  let y := x.prepared (.resolve name searchPath)
  have hbind (f : Outline → ExceptT ProviderError (StateM Index) (Option Definition)) :
      (Index.load files p >>= f) y = ExceptT.bindCont f (Index.load files p y).1 (Index.load files p y).2 := rfl
  change ((y.survey files).resolve name) y = _
  have hlocate : (y.survey files).locate name none = some p := h
  rw [Survey.resolve, hlocate]
  apply (hbind _).trans
  change _ = ((Index.load files p y).1.map _, _)
  obtain ⟨outcome, z⟩ := Index.load files p y
  cases outcome <;> rfl

/-- A module that a name resolves to is read where the name is located, and its outline is kept. -/
theorem Index.Reached.load_of_resolve {x : Index} (hx : x.Reached files) {name : String} {searchPath : List Path}
    {d : Definition} (h : (Index.answer files (.resolve name searchPath) x).1 = .ok (some d))
    (hmodule : d.isModule = true) :
  ∃ p o, (fresh files (Index.answer files (.resolve name searchPath) x).2.searchPath).locate name none = some p ∧
    d.path = some p ∧ (Index.load files p (Index.answer files (.resolve name searchPath) x).2).1 = .ok o ∧
    o.module = moduleNameOf files (Index.answer files (.resolve name searchPath) x).2.searchPath p
  := by
  let y := x.prepared (.resolve name searchPath)
  have hserves := (hx.isCurrent.answer (.resolve name searchPath)).2
  have hbegun := hx.isCurrent.serves_prepared (.resolve name searchPath)
  obtain ⟨found, hfound, hsome⟩ := hx.fresh_of_answer h
  obtain ⟨d', rfl, halike⟩ : ∃ d', found = some d' ∧ d.Alike files d' := by
    cases hsome with
    | some halike => exact ⟨_, rfl, halike⟩
  have hmodule' : d'.isModule = true := by
    rw [Definition.isModule, halike.kind]
    exact hmodule
  obtain ⟨p, hlocate⟩ := exists_locate_of_resolve hfound hmodule'
  have hhold : ∀ before, before = files → StampsHold before files := by
    rintro _ rfl
    exact .refl _
  have hload {z : Index} (hz : z.Serves (· = files) y.searchPath) :=
    mirrors_load (.refl p) (· = files) rfl hhold z hz
  have hresolve : Index.answer files (.resolve name searchPath) x =
      ((Index.load files p y).1.map fun _ => some (moduleDefinition name p), (Index.load files p y).2) :=
    Index.answer_resolve hlocate
  have hfirst := (hload hbegun).1
  cases hread : (Index.load files p y).1 with
  | error e =>
    rw [hresolve, hread] at h
    cases h
  | ok first =>
    rw [hread] at hfirst
    rw [hresolve, hread] at h
    cases h
    have hsecond := (hload hserves).1
    generalize hnow : outlineNow files y.searchPath p = now at hfirst hsecond
    cases hfirst with
    | ok =>
      generalize hagain : (Index.load files p (Index.answer files (.resolve name searchPath) x).2).1 = again at hsecond
      cases hsecond with
      | ok hsame =>
        rw [hserves.searchPath]
        refine ⟨p, _, hlocate, rfl, hagain, ?_⟩
        rw [← module_of_outlineNow hnow, hsame.rest]

/-- A module that a name resolves to, with no link on the way to its file from the entry that it is found below, has
this name exactly if packages lead to it from there and from no entry before. -/
theorem Index.Reached.module_eq_iff {x : Index} (hx : x.Reached files) (hsound : files.IsSound) {name : String}
    {package : List String} {last : String} (hname : IsModuleName name package last) (hlast : last ≠ "__init__")
    {searchPath : List Path} {d : Definition}
    (h : (Index.answer files (.resolve name searchPath) x).1 = .ok (some d)) (hmodule : d.isModule = true) :
  ∃ before e after p o, (Index.answer files (.resolve name searchPath) x).2.searchPath = before ++ e :: after ∧
    (before ++ e :: after == searchPath) = true ∧ (∀ e' ∈ before, Survey.moduleFileIn files name e' = none) ∧
    Survey.moduleFileIn files name e = some p ∧ d.path = some p ∧
    (Index.load files p (Index.answer files (.resolve name searchPath) x).2).1 = .ok o ∧
    ∀ root steps entry, files.lookup e = .ok (root, .directory) → p.components = e.components ++ steps.map .name →
      files.lookup p = .ok (root ++ steps, entry) →
      (o.module = name ↔
        LiesBelow files (root ++ steps) e ∧ ∀ e' ∈ before, ¬ LiesBelow files (root ++ steps) e')
  := by
  have hsearchPath : (Index.answer files (.resolve name searchPath) x).2.searchPath =
      searchPathFor x.searchPath (.resolve name searchPath) := by
    rw [(hx.isCurrent.answer (.resolve name searchPath)).2.searchPath, Index.searchPath_prepared]
  obtain ⟨p, o, hlocate, hpath, hload, hnamed⟩ := hx.load_of_resolve h hmodule
  obtain ⟨before, e, after, hsplit, hnone, hfound⟩ := exists_entry_of_locate hlocate
  have hinUse : (Index.answer files (.resolve name searchPath) x).2.searchPath = before ++ e :: after := hsplit
  refine ⟨before, e, after, p, o, hinUse, ?_, hnone, hfound, hpath, hload, ?_⟩
  · rw [← hinUse, hsearchPath]
    exact searchPathFor_beq x.searchPath name searchPath
  · intro root steps entry hroot hcomponents hlookup
    rw [hnamed, hinUse]
    exact moduleNameOf_eq_iff hname hlast hsound hnone hfound hroot hcomponents hlookup

end Resolving

/-! ### A package, and what stands beside it -/

section Shelved

open scoped Grammar

/-- A module in a package and one in a directory that is none, and a link to the former. -/
def shelved : FileTree :=
  { entries := [(["w"], .directory), (["w", "pkg"], .directory), (["w", "pkg", "__init__.py"], .file .empty 1),
      (["w", "pkg", "m.py"], .file "x = 1\n".toUTF8 1), (["w", "ns"], .directory),
      (["w", "ns", "m.py"], .file "x = 1\n".toUTF8 1), (["w", "link.py"], .link "pkg/m.py")] }

theorem isSound_shelved :
  shelved.IsSound
  :=
  FileTree.isSound_of_entries (by decide) rfl (List.forall_mem_nil _)

/-- The module in the package has the name that leads to it. -/
theorem Index.Reached.module_eq_iff_shelved :
  ∃ d p o, (Index.answer shelved (.resolve "pkg.m" [⟨"/w"⟩]) {}).1 = .ok (some d) ∧ d.path = some p ∧
    (Index.load shelved p (Index.answer shelved (.resolve "pkg.m" [⟨"/w"⟩]) {}).2).1 = .ok o ∧ o.module = "pkg.m"
  := by
  have hempty : Index.Reached shelved {} := .empty
  have hname : IsModuleName "pkg.m" ["pkg"] "m" := ⟨by decide, by decide⟩
  obtain ⟨d, hanswer, hmodule⟩ : ∃ d, (Index.answer shelved (.resolve "pkg.m" [⟨"/w"⟩]) {}).1 = .ok (some d) ∧
      d.isModule = true := by
    have hfound : (Index.answer shelved (.resolve "pkg.m" [⟨"/w"⟩]) {}).1.toOption.join.any Definition.isModule =
        true := by
      decide +kernel
    cases hanswer : (Index.answer shelved (.resolve "pkg.m" [⟨"/w"⟩]) {}).1 with
    | error e =>
      rw [hanswer] at hfound
      cases hfound
    | ok found =>
      rw [hanswer] at hfound
      cases found with
      | none => cases hfound
      | some d => exact ⟨d, rfl, hfound⟩
  obtain ⟨before, e, after, p, o, hinUse, -, -, hfound, hpath, hload, hiff⟩ :=
    hempty.module_eq_iff isSound_shelved hname (by decide) hanswer hmodule
  refine ⟨d, p, o, hanswer, hpath, hload, ?_⟩
  obtain ⟨rfl, rfl⟩ : before = [] ∧ e = ⟨"/w"⟩ := by
    have hserves := (hempty.isCurrent.answer (.resolve "pkg.m" [⟨"/w"⟩])).2
    have hsingle : [⟨"/w"⟩] = before ++ e :: after := hserves.searchPath.symm.trans hinUse
    cases before with
    | nil => exact ⟨rfl, (List.cons.inj hsingle).1.symm⟩
    | cons first more => simp at hsingle
  obtain rfl : (⟨"/w/pkg/m.py"⟩ : Path) = p := by
    have hfile : (Survey.moduleFileIn shelved "pkg.m" ⟨"/w"⟩).map (·.spelling) = some "/w/pkg/m.py" := by decide
    rw [hfound] at hfile
    exact congrArg Path.mk (Option.some.inj hfile).symm
  have hroot : shelved.lookup ⟨"/w"⟩ = .ok (["w"], .directory) := rfl
  have hfile : shelved.lookup ⟨"/w/pkg/m.py"⟩ = .ok (["w"] ++ ["pkg", "m.py"], .file "x = 1\n".toUTF8 1) := rfl
  apply (hiff ["w"] ["pkg", "m.py"] _ hroot (by decide) hfile).mpr
  exact ⟨⟨["w"], ["pkg", "m.py"], hroot, rfl, by simp, by decide⟩, fun first hfirst => absurd hfirst List.not_mem_nil⟩

/-- The name of the module in the file that a name leads to. -/
def moduleLedTo (files : FileTree) (name : String) (searchPath : List Path) : Option String :=
  match Index.answer files (.resolve name searchPath) {} with
  | (.ok (some d), x) =>
    if d.isModule then d.path.bind fun p => (Index.load files p x).1.toOption.map (·.module) else none
  | _ => none

/-- The file of a module can have another name than the one that leads to it: if it is asked for as a marker, if it
is in no package, if an entry before leads to it as well, and if it is a link. -/
theorem not_module_eq_shelved :
  moduleLedTo shelved "pkg.__init__" [⟨"/w"⟩] = some "pkg" ∧ moduleLedTo shelved "ns.m" [⟨"/w"⟩] = some "m" ∧
    moduleLedTo shelved "pkg.m" [⟨"/w/pkg"⟩, ⟨"/w"⟩] = some "m" ∧ moduleLedTo shelved "link" [⟨"/w"⟩] = some "pkg.m"
  := by
  decide +kernel

end Shelved

end CallGraph.Source
