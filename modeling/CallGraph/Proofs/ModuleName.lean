import CallGraph.Proofs.Source.Naming

/-!
# Which files have a dotted name

An entry of the search path names a file when both exist, the file really stands below the place that the entry leads
to, and every directory in between is a package; the name is spelled by the names on the way.  A file has a name exactly
when some entry names it, and it is then the name that the first such entry gives, so that further entries change no
name.
-/

namespace CallGraph

variable {files : FileTree}

/-- A place lies below another one. -/
def IsBelow (root place : List String) : Prop :=
  ∃ more, more ≠ [] ∧ place = root ++ more

/-- Names are joined by dots, and one `.py` at the end is left out. -/
def IsJoined (parts : List String) (name : String) : Prop :=
  ".".intercalate parts = name ++ ".py" ∨
    (∀ stem, ".".intercalate parts ≠ stem ++ ".py") ∧ ".".intercalate parts = name

/-- A place gives a name to another one: only packages stand between them, and what they lead to has a name. -/
structure GivesName (files : FileTree) (root place : List String) (name : String) : Prop where
  below : IsBelow root place
  packages : ∀ directory, IsBelow root directory → IsBelow directory place →
    files.exists ((Path.ofNames directory).child "__init__.py") = true
  joined : IsJoined (place.drop root.length) name
  nonempty : name ≠ ""

/-- A path that may lead over links gives a name to a file without links on the way. -/
def EntryNames (files : FileTree) (file entry : Path) (name : String) : Prop :=
  ∃ root, files.canonical entry = .ok root ∧ GivesName files root.names file.names name

/-! ### The spelling -/

theorem isSuffix_toList_iff {s ending : String} :
  ending.toList <:+ s.toList ↔ ∃ stem, s = stem ++ ending
  := by
  constructor
  · rintro ⟨cs, hcs⟩
    refine ⟨String.ofList cs, String.toList_inj.mp ?_⟩
    rw [String.toList_append, String.toList_ofList, hcs]
  · rintro ⟨stem, rfl⟩
    rw [String.toList_append]
    exact List.suffix_append _ _

theorem dropEnding_eq_iff_append {s ending rest : String} :
  dropEnding ending s = rest ↔ s = rest ++ ending ∨ (∀ stem, s ≠ stem ++ ending) ∧ s = rest
  := by
  by_cases h : ending.toList <:+ s.toList
  · obtain ⟨stem, rfl⟩ := isSuffix_toList_iff.mp h
    rw [dropEnding_append]
    constructor
    · rintro rfl
      exact .inl rfl
    · rintro (hsame | ⟨hnone, -⟩)
      · rw [← dropEnding_append stem ending, hsame, dropEnding_append]
      · exact absurd rfl (hnone stem)
  · rw [dropEnding_of_not_suffix h]
    have hnone : ∀ stem, s ≠ stem ++ ending := fun stem hs => h (isSuffix_toList_iff.mpr ⟨stem, hs⟩)
    constructor
    · exact fun hs => .inr ⟨hnone, hs⟩
    · rintro (hs | ⟨-, hs⟩)
      · exact absurd hs (hnone rest)
      · exact hs

/-! ### Packages on the way -/

theorem isBelow_append_iff {root more : List String} :
  IsBelow root (root ++ more) ↔ more ≠ []
  := by
  constructor
  · rintro ⟨more', hmore', h⟩
    rwa [List.append_cancel_left h]
  · exact fun hmore => ⟨more, hmore, rfl⟩

/-- On the way to a place at least two names below another one, the first stop is the directory named first. -/
theorem isBelow_iff_of_cons_cons {root directory rest : List String} {name next : String}
    (hdirectory : IsBelow directory (root ++ name :: next :: rest)) :
  IsBelow root directory ↔ directory = root ++ [name] ∨ IsBelow (root ++ [name]) directory
  := by
  constructor
  · rintro ⟨above, habove, rfl⟩
    obtain ⟨more, -, hmore⟩ := hdirectory
    rw [List.append_assoc] at hmore
    have hsplit := List.append_cancel_left hmore
    cases above with
    | nil => exact absurd rfl habove
    | cons first above =>
      obtain ⟨rfl, -⟩ := List.cons.inj hsplit
      cases above with
      | nil => exact .inl rfl
      | cons second above => exact .inr ⟨second :: above, List.cons_ne_nil _ _, List.append_cons _ _ _⟩
  · rintro (rfl | ⟨above, -, rfl⟩)
    · exact ⟨[name], List.cons_ne_nil _ _, rfl⟩
    · exact ⟨name :: above, List.cons_ne_nil _ _, (List.append_cons _ _ _).symm⟩

/-- Nothing stands between a place and what it holds itself. -/
theorem IsBelow.not_isBelow_concat {root directory more : List String} (h : IsBelow root directory)
    (hmore : more.length ≤ 1) :
  ¬ IsBelow directory (root ++ more)
  := by
  rintro ⟨below, hbelow, heq⟩
  obtain ⟨above, habove, rfl⟩ := h
  have hlength := congrArg List.length heq
  rw [← List.length_pos_iff] at habove hbelow
  simp only [List.length_append] at hlength
  omega

theorem packagesBetween_iff {root more : List String} :
  packagesBetween files root more = true ↔
    ∀ directory, IsBelow root directory → IsBelow directory (root ++ more) →
      files.isPackage (Path.ofNames directory) = true
  := by
  induction more generalizing root with
  | nil => exact iff_of_true rfl fun _ hroot hplace => absurd hplace (hroot.not_isBelow_concat (Nat.zero_le 1))
  | cons name rest ih =>
    cases rest with
    | nil => exact iff_of_true rfl fun _ hroot hplace => absurd hplace (hroot.not_isBelow_concat (Nat.le_refl 1))
    | cons next rest =>
      rw [Source.packagesBetween_cons_cons, Bool.and_eq_true, ih, ← List.append_cons]
      constructor
      · rintro ⟨hfirst, hrest⟩ directory hroot hplace
        obtain rfl | hbelow := (isBelow_iff_of_cons_cons hplace).mp hroot
        · exact hfirst
        · exact hrest directory hbelow hplace
      · intro hall
        have hfirst : IsBelow (root ++ [name]) (root ++ name :: next :: rest) :=
          ⟨next :: rest, List.cons_ne_nil _ _, List.append_cons _ _ _⟩
        refine ⟨hall _ (isBelow_append_iff.mpr (List.cons_ne_nil _ _)) hfirst, fun directory hbelow hplace => ?_⟩
        exact hall directory ((isBelow_iff_of_cons_cons hplace).mpr (.inr hbelow)) hplace

/-! ### One entry -/

theorem isBelow_iff {root place : List String} :
  IsBelow root place ↔ root.length < place.length ∧ root <+: place
  := by
  constructor
  · rintro ⟨more, hmore, rfl⟩
    rw [List.length_append]
    exact ⟨Nat.lt_add_of_pos_right (List.length_pos_iff.mpr hmore), List.prefix_append _ _⟩
  · rintro ⟨hlength, more, rfl⟩
    refine isBelow_append_iff.mpr ?_
    rintro rfl
    rw [List.append_nil] at hlength
    exact absurd hlength (Nat.lt_irrefl _)

theorem nameBelow?_of_not_isBelow {root file : Path} (h : ¬ IsBelow root.names file.names) :
  nameBelow? files root file = none
  := by
  rw [nameBelow?, if_neg]
  rwa [Bool.and_eq_true, decide_eq_true_eq, List.isPrefixOf_iff_prefix, ← isBelow_iff]

theorem nameBelow?_of_append {root file : Path} {more : List String} (hmore : more ≠ [])
    (hplace : file.names = root.names ++ more) :
  nameBelow? files root file =
    if packagesBetween files root.names more then
      if (dropEnding ".py" (".".intercalate more)).isEmpty then none else some (dropEnding ".py" (".".intercalate more))
    else none
  := by
  obtain ⟨hlength, hprefix⟩ := isBelow_iff.mp ⟨more, hmore, hplace⟩
  have hdrop : file.names.drop root.names.length = more := by rw [hplace, List.drop_left]
  rw [nameBelow?, if_pos, hdrop]
  rw [Bool.and_eq_true, decide_eq_true_eq, List.isPrefixOf_iff_prefix]
  exact ⟨hlength, hprefix⟩

theorem nameBelow?_eq_some_iff {root file : Path} {name : String} :
  nameBelow? files root file = some name ↔ GivesName files root.names file.names name
  := by
  by_cases hbelow : IsBelow root.names file.names
  case neg =>
    rw [nameBelow?_of_not_isBelow hbelow]
    exact iff_of_false nofun fun h => hbelow h.below
  case pos =>
    obtain ⟨more, hmore, hplace⟩ := id hbelow
    have hjoined : dropEnding ".py" (".".intercalate more) = name ↔
        IsJoined (file.names.drop root.names.length) name := by
      rw [hplace, List.drop_left]
      exact dropEnding_eq_iff_append
    have hpackages : packagesBetween files root.names more = true ↔ ∀ directory, IsBelow root.names directory →
        IsBelow directory file.names → files.isPackage (Path.ofNames directory) = true := by
      rw [hplace]
      exact packagesBetween_iff
    rw [nameBelow?_of_append hmore hplace]
    constructor
    · intro h
      rw [Option.ite_none_right_eq_some, Option.ite_none_left_eq_some, String.isEmpty_iff] at h
      obtain ⟨hway, hnonempty, hname⟩ := h
      cases hname
      exact ⟨hbelow, hpackages.mp hway, hjoined.mp rfl, hnonempty⟩
    · rintro ⟨-, hway, hspelled, hnonempty⟩
      rw [if_pos (hpackages.mpr hway), hjoined.mpr hspelled, if_neg]
      rwa [String.isEmpty_iff]

/-! ### The search path -/

theorem exists_iff_canonical {p : Path} :
  files.exists p = true ↔ ∃ file, files.canonical p = .ok file
  := by
  rw [FileTree.exists, FileTree.canonical]
  cases files.lookup p with
  | ok => exact iff_of_true rfl ⟨_, rfl⟩
  | error =>
    refine iff_of_false Bool.false_ne_true ?_
    rintro ⟨file, hfile⟩
    cases hfile

/-- The name that an entry of the search path gives to a file without links on the way. -/
def entryName? (files : FileTree) (file entry : Path) : Option String :=
  match files.canonical entry with
  | .error _ => none
  | .ok root => nameBelow? files root file

theorem moduleName?_of_canonical {searchPath : List Path} {p file : Path} (h : files.canonical p = .ok file) :
  moduleName? files searchPath p = searchPath.findSome? (entryName? files file)
  := by
  rw [moduleName?, h]
  rfl

theorem moduleName?_of_error {searchPath : List Path} {p : Path} {e : FileError} (h : files.canonical p = .error e) :
  moduleName? files searchPath p = none
  := by
  rw [moduleName?, h]

theorem entryName?_eq_some_iff {file entry : Path} {name : String} :
  entryName? files file entry = some name ↔ EntryNames files file entry name
  := by
  rw [entryName?, EntryNames]
  cases files.canonical entry with
  | error => exact iff_of_false nofun nofun
  | ok root => simp only [Except.ok.injEq, exists_eq_left', nameBelow?_eq_some_iff]

theorem entryName?_eq_none_iff {file entry : Path} :
  entryName? files file entry = none ↔ ∀ name, ¬ EntryNames files file entry name
  := by
  simp only [← entryName?_eq_some_iff, Option.eq_none_iff_forall_ne_some, ne_eq]

/-- The name of a file is the one that the first entry gives among those that give any. -/
theorem moduleName?_eq_some_iff {searchPath : List Path} {p : Path} {name : String} :
  moduleName? files searchPath p = some name ↔
    ∃ file, files.canonical p = .ok file ∧ ∃ before entry after, searchPath = before ++ entry :: after ∧
      EntryNames files file entry name ∧ ∀ earlier ∈ before, ∀ other, ¬ EntryNames files file earlier other
  := by
  cases h : files.canonical p with
  | error =>
    rw [moduleName?_of_error h]
    exact iff_of_false nofun nofun
  | ok file =>
    rw [moduleName?_of_canonical h, List.findSome?_eq_some_iff]
    simp only [Except.ok.injEq, exists_eq_left', entryName?_eq_some_iff, entryName?_eq_none_iff]

/-- A file has a name as soon as some entry gives one. -/
theorem exists_moduleName?_iff {searchPath : List Path} {p : Path} :
  (∃ name, moduleName? files searchPath p = some name) ↔
    ∃ file, files.canonical p = .ok file ∧ ∃ entry ∈ searchPath, ∃ name, EntryNames files file entry name
  := by
  rw [← Option.isSome_iff_exists]
  cases h : files.canonical p with
  | error =>
    rw [moduleName?_of_error h]
    exact iff_of_false nofun nofun
  | ok file =>
    rw [moduleName?_of_canonical h, List.findSome?_isSome_iff]
    simp only [Except.ok.injEq, exists_eq_left', ← entryName?_eq_some_iff, Option.isSome_iff_exists]

/-- A file has a name exactly when it exists and an entry of the search path leads to a place above where it really
stands, with only packages in between and something left of the names on the way when they are joined and one `.py` is
dropped.  It is then what is left below the first such entry, and no longer search path changes it. -/
theorem FileTree.named_by_first_entry (files : FileTree) (searchPath : List Path) (p : Path) :
  ((∃ name, moduleName? files searchPath p = some name) ↔
      files.exists p = true ∧
        ∃ file, files.canonical p = .ok file ∧ ∃ entry ∈ searchPath, ∃ name, EntryNames files file entry name) ∧
    (∀ name, moduleName? files searchPath p = some name ↔
      ∃ file, files.canonical p = .ok file ∧ ∃ before entry after, searchPath = before ++ entry :: after ∧
        EntryNames files file entry name ∧ ∀ earlier ∈ before, ∀ other, ¬ EntryNames files file earlier other) ∧
    ∀ more name, moduleName? files searchPath p = some name → moduleName? files (searchPath ++ more) p = some name
  := by
  refine ⟨?_, fun name => moduleName?_eq_some_iff, fun more name hname => ?_⟩
  · rw [exists_moduleName?_iff]
    constructor
    · rintro ⟨file, hfile, hentry⟩
      exact ⟨exists_iff_canonical.mpr ⟨file, hfile⟩, file, hfile, hentry⟩
    · exact And.right
  · rw [moduleName?_eq_some_iff] at hname ⊢
    obtain ⟨file, hfile, before, entry, after, rfl, hentry, hbefore⟩ := hname
    exact ⟨file, hfile, before, entry, after ++ more, List.append_assoc _ _ _, hentry, hbefore⟩

/-- A package with a module in it, and a link to the directory that holds the package. -/
def linkedPackage : FileTree :=
  { entries := [(["w"], .directory), (["w", "pkg"], .directory), (["w", "pkg", "__init__.py"], .file ByteArray.empty 0),
      (["w", "pkg", "a.py"], .file ByteArray.empty 0), (["link"], .link "/w")] }

/-- An entry that is missing and one that is the file itself give no name, and one that leads over a link does; another
one behind it would give a shorter name and is not asked. -/
theorem FileTree.named_by_first_entry_linked :
  moduleName? linkedPackage [⟨"/gone"⟩, ⟨"/w/pkg/a.py"⟩, ⟨"/link"⟩] ⟨"/link/pkg/a.py"⟩ = some "pkg.a" ∧
    moduleName? linkedPackage [⟨"/w/pkg"⟩] ⟨"/link/pkg/a.py"⟩ = some "a" ∧
    moduleName? linkedPackage ([⟨"/gone"⟩, ⟨"/w/pkg/a.py"⟩, ⟨"/link"⟩] ++ [⟨"/w/pkg"⟩]) ⟨"/link/pkg/a.py"⟩ =
      some "pkg.a"
  := by
  have hname : moduleName? linkedPackage [⟨"/gone"⟩, ⟨"/w/pkg/a.py"⟩, ⟨"/link"⟩] ⟨"/link/pkg/a.py"⟩ =
      some "pkg.a" := by
    decide +kernel
  have hshorter : moduleName? linkedPackage [⟨"/w/pkg"⟩] ⟨"/link/pkg/a.py"⟩ = some "a" := by
    decide +kernel
  exact ⟨hname, hshorter, (FileTree.named_by_first_entry linkedPackage _ _).2.2 [⟨"/w/pkg"⟩] "pkg.a" hname⟩

end CallGraph
