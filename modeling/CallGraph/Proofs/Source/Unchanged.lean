import CallGraph.Proofs.Source.Naming
import Mathlib.Data.List.Infix

/-!
# Sources that stay as they are

What a name or a script is resolved into depends on some paths only: the entries of the search path, the paths at
which the files of modules are looked for, and the packages around the files found.  Over trees in which these are the
same, names and scripts are resolved alike.  So are they on search paths on which everything is found below the same
entry first.
-/

namespace CallGraph

/-- Whether two entries are the same. -/
instance : DecidableEq FileTree.Entry
  | .directory, .directory => isTrue rfl
  | .file octets modified, .file octets' modified' =>
    decidable_of_iff (octets.data = octets'.data ∧ modified = modified') (by simp [ByteArray.ext_iff])
  | .link target, .link target' => decidable_of_iff (target = target') (by simp)
  | .directory, .file _ _ | .directory, .link _ | .file _ _, .directory | .file _ _, .link _ | .link _, .directory
  | .link _, .file _ _ => isFalse (by simp)

/-- The places on the way to what a path leads to. -/
def FileTree.placesTo (t : FileTree) (p : Path) : List (List String) :=
  match t.lookup p with
  | .ok (place, _) => place.inits
  | .error _ => []

namespace Source

/-- The paths at which the file of a module is looked for. -/
def Survey.candidates (searchPath : List Path) (name : String) : List Path :=
  searchPath.flatMap fun e =>
    let base := e.join ((dottedParts name).foldl Path.child ⟨""⟩)
    [base.withExtension "py", base.child packageMarker]

/-- The names of the modules that are looked for when a name is resolved: itself, and what is before its last dot. -/
def Survey.modulesFor (name : String) : List String :=
  name :: ((Receiver.cutAtLastDot name.toList).map fun parts => String.ofList parts.1).toList

/-- Trees in which the entries of a search path and some paths lead to the same, with the same packages around. -/
structure SameSources (searchPath looked : List Path) (t t' : FileTree) : Prop where
  entries : ∀ e ∈ searchPath, t'.lookup e = t.lookup e
  paths : ∀ p ∈ looked, t'.lookup p = t.lookup p
  packages : ∀ p ∈ looked, ∀ place ∈ t.placesTo p,
    t'.isPackage (Path.ofNames place) = t.isPackage (Path.ofNames place)

instance (searchPath looked : List Path) (t t' : FileTree) : Decidable (SameSources searchPath looked t t') :=
  decidable_of_iff ((∀ e ∈ searchPath, t'.lookup e = t.lookup e) ∧ (∀ p ∈ looked, t'.lookup p = t.lookup p) ∧
      ∀ p ∈ looked, ∀ place ∈ t.placesTo p,
        t'.isPackage (Path.ofNames place) = t.isPackage (Path.ofNames place))
    ⟨fun ⟨entries, paths, packages⟩ => ⟨entries, paths, packages⟩, fun h => ⟨h.entries, h.paths, h.packages⟩⟩

/-- Search paths on which everything is found first below the same entry, as long as equal entries are not told
apart. -/
def SameFirst (searchPath searchPath' : List Path) : Prop :=
  ∀ {β : Type} (f : Path → Option β), (∀ e e', (e == e') = true → (f e).isSome = (f e').isSome) →
    searchPath.findSome? f = searchPath'.findSome? f

variable {t t' : FileTree} {searchPath searchPath' looked : List Path}

theorem mem_candidates_of_moduleFileIn {name : String} {e p : Path} (he : e ∈ searchPath)
    (h : Survey.moduleFileIn t name e = some p) :
  p ∈ Survey.candidates searchPath name
  := by
  refine List.mem_flatMap.mpr ⟨e, he, ?_⟩
  rw [Survey.moduleFileIn] at h
  dsimp only at h ⊢
  split at h
  case isTrue =>
    obtain rfl := Option.some.inj h
    exact List.mem_cons_self
  case isFalse =>
    split at h
    case isTrue =>
      obtain rfl := Option.some.inj h
      exact List.mem_cons_of_mem _ List.mem_cons_self
    case isFalse => cases h

theorem mem_candidates_of_locate {m : Type → Type} {s : Survey m} {name : String} {p : Path}
    (h : s.locate name none = some p) :
  p ∈ Survey.candidates s.searchPath name
  := by
  obtain ⟨before, e, after, hsplit, -, hfound⟩ := exists_entry_of_locate h
  exact mem_candidates_of_moduleFileIn (by simp [hsplit]) hfound

/-! ### The names of modules -/

theorem findSome?_congr_of_mem {α β : Type} {items : List α} {f g : α → Option β} (h : ∀ a ∈ items, f a = g a) :
  items.findSome? f = items.findSome? g
  := by
  induction items with
  | nil => rfl
  | cons a items ih =>
    obtain ⟨ha, hitems⟩ := List.forall_mem_cons.mp h
    rw [List.findSome?_cons, List.findSome?_cons, ha, ih hitems]

/-- The way between two places is one of packages if the same of the places on it are packages. -/
theorem packagesBetween_eq {root more : List String}
    (h : ∀ place ∈ (root ++ more).inits, t'.isPackage (Path.ofNames place) = t.isPackage (Path.ofNames place)) :
  packagesBetween t' root more = packagesBetween t root more
  := by
  induction more generalizing root with
  | nil => rfl
  | cons name rest ih =>
    cases rest with
    | nil => rfl
    | cons next rest =>
      have hname : root ++ [name] ∈ (root ++ name :: next :: rest).inits := by
        rw [List.mem_inits, List.append_cons root name (next :: rest)]
        exact List.prefix_append _ _
      rw [List.append_cons] at h hname
      rw [packagesBetween_cons_cons, packagesBetween_cons_cons, h _ hname, ih h]

namespace SameSources

variable (h : SameSources searchPath looked t t')

include h

theorem moduleFileIn_eq {name : String} (hlooked : Survey.candidates searchPath name ⊆ looked) {e : Path}
    (he : e ∈ searchPath) :
  Survey.moduleFileIn t' name e = Survey.moduleFileIn t name e
  := by
  have hisFile {p : Path} (hp : p ∈ looked) : t'.isFile p = t.isFile p := by
    rw [FileTree.isFile, FileTree.isFile, h.paths p hp]
  rw [Survey.moduleFileIn, Survey.moduleFileIn, hisFile (hlooked (List.mem_flatMap.mpr ⟨e, he, List.mem_cons_self⟩)),
    hisFile (hlooked (List.mem_flatMap.mpr ⟨e, he, List.mem_cons_of_mem _ List.mem_cons_self⟩))]

/-- A path leads to a module of the same name. -/
theorem moduleName?_eq (hsound : t.IsSound) {p : Path} (hp : p ∈ looked) :
  moduleName? t' searchPath p = moduleName? t searchPath p
  := by
  have hplaces := h.packages p hp
  rw [moduleName?, moduleName?, FileTree.canonical, FileTree.canonical, h.paths p hp]
  rw [FileTree.placesTo] at hplaces
  cases hlookup : t.lookup p with
  | error e => rfl
  | ok found =>
    obtain ⟨place, entry⟩ := found
    obtain ⟨-, hplace, -⟩ := hsound.stands_of_lookup hlookup
    rw [hlookup] at hplaces
    apply findSome?_congr_of_mem
    intro e he
    change nameFrom? t' place e = nameFrom? t place e
    rw [nameFrom?, nameFrom?, FileTree.canonical, FileTree.canonical, h.entries e he]
    cases hroot : t.lookup e with
    | error e => rfl
    | ok found =>
      obtain ⟨root, other⟩ := found
      obtain ⟨-, hnames, -⟩ := hsound.stands_of_lookup hroot
      change nameBelow? t' (Path.ofNames root) (Path.ofNames place) =
        nameBelow? t (Path.ofNames root) (Path.ofNames place)
      rw [nameBelow?, nameBelow?, Path.names_ofNames hplace, Path.names_ofNames hnames]
      split
      case isFalse => rfl
      case isTrue hbelow =>
        rw [Bool.and_eq_true, List.isPrefixOf_iff_prefix] at hbelow
        obtain ⟨-, more, rfl⟩ := hbelow
        rw [List.drop_left]
        dsimp only
        rw [packagesBetween_eq hplaces]

end SameSources

/-- Equal entries of a search path give the same name. -/
theorem nameFrom?_congr (hsound : t.IsSound) {place : List String} {entry : FileTree.Entry}
    (hentry : t.entry? place = some entry) (hplace : ∀ name ∈ place, IsEntryName name) {e e' : Path}
    (h : (e == e') = true) :
  nameFrom? t place e = nameFrom? t place e'
  := by
  by_cases hroot : ∃ root, t.lookup e = .ok (root, .directory)
  · obtain ⟨root, hroot⟩ := hroot
    rw [nameFrom?, nameFrom?, FileTree.canonical, FileTree.canonical, hroot,
      FileTree.lookup_directory_congr h hroot]
  · have hroot' : ∀ root, t.lookup e' ≠ .ok (root, .directory) :=
      fun root hroot' => hroot ⟨root, FileTree.lookup_directory_congr (BEq.symm h) hroot'⟩
    rw [not_exists] at hroot
    rw [nameFrom?_eq_none hsound hentry hplace hroot, nameFrom?_eq_none hsound hentry hplace hroot']

/-- A path leads to a module of the same name on search paths with the same first entries. -/
theorem SameFirst.moduleName?_eq (h : SameFirst searchPath searchPath') (hsound : t.IsSound) (p : Path) :
  moduleName? t searchPath' p = moduleName? t searchPath p
  := by
  rw [moduleName?, moduleName?, FileTree.canonical]
  cases hlookup : t.lookup p with
  | error e => rfl
  | ok found =>
    obtain ⟨place, entry⟩ := found
    obtain ⟨hentry, hplace, -⟩ := hsound.stands_of_lookup hlookup
    have hfound := h (nameFrom? t place) fun e e' hequal =>
      congrArg Option.isSome (nameFrom?_congr hsound hentry hplace hequal)
    exact hfound.symm

/-! ### What names and scripts are resolved into -/

variable [Parser]

theorem locate_fresh (t : FileTree) (searchPath : List Path) (name : String) :
  (fresh t searchPath).locate name none =
    if name.isEmpty then none else searchPath.findSome? (Survey.moduleFileIn t name)
  := by
  rw [Survey.locate, Option.toList_none, List.append_nil]
  rfl

theorem script_congr {p : Path} (h : outlineNow t' searchPath' p = outlineNow t searchPath p) :
  (fresh t' searchPath').script p = (fresh t searchPath).script p
  := by
  have houtline : (fresh t' searchPath').outline p = (fresh t searchPath).outline p := h
  rw [Survey.script, Survey.script, houtline]

/-- A name is resolved alike if the files of the modules for it are found at the same places and read alike. -/
theorem resolve_congr {name : String}
    (hlocate : ∀ module ∈ Survey.modulesFor name,
      (fresh t' searchPath').locate module none = (fresh t searchPath).locate module none)
    (houtline : ∀ module ∈ Survey.modulesFor name, ∀ p, (fresh t searchPath).locate module none = some p →
      outlineNow t' searchPath' p = outlineNow t searchPath p) :
  (fresh t' searchPath').resolve name = (fresh t searchPath).resolve name
  := by
  have hread {module : String} (hmodule : module ∈ Survey.modulesFor name) {p : Path}
      (hp : (fresh t searchPath).locate module none = some p) :
      (fresh t' searchPath').outline p = (fresh t searchPath).outline p := houtline module hmodule p hp
  have hown : name ∈ Survey.modulesFor name := List.mem_cons_self
  rw [Survey.resolve, Survey.resolve, hlocate name hown]
  cases hfound : (fresh t searchPath).locate name none with
  | some p =>
    dsimp only
    rw [hread hown hfound]
  | none =>
    cases hcut : Receiver.cutAtLastDot name.toList with
    | none => rfl
    | some parts =>
      obtain ⟨module, attr⟩ := parts
      have hmodule : String.ofList module ∈ Survey.modulesFor name := by
        rw [Survey.modulesFor, hcut]
        exact List.mem_cons_of_mem _ List.mem_cons_self
      dsimp only
      rw [hlocate _ hmodule]
      cases hfound : (fresh t searchPath).locate (String.ofList module) none with
      | none => rfl
      | some p =>
        dsimp only
        rw [hread hmodule hfound]

namespace SameSources

variable (h : SameSources searchPath looked t t')

include h

theorem locate_eq {name : String} (hlooked : Survey.candidates searchPath name ⊆ looked) :
  (fresh t' searchPath).locate name none = (fresh t searchPath).locate name none
  := by
  have hfound := findSome?_congr_of_mem fun e he => h.moduleFileIn_eq hlooked he
  rw [locate_fresh, locate_fresh, hfound]

/-- A path leads to a file with the same outline. -/
theorem outlineNow_eq (hsound : t.IsSound) {p : Path} (hp : p ∈ looked) :
  outlineNow t' searchPath p = outlineNow t searchPath p
  := by
  rw [outlineNow, outlineNow, FileTree.readOctets, FileTree.readOctets, h.paths p hp, moduleNameOf, moduleNameOf,
    h.moduleName?_eq hsound hp]

/-- A script is resolved into the same definition. -/
theorem script_eq (hsound : t.IsSound) {p : Path} (hp : p ∈ looked) :
  (fresh t' searchPath).script p = (fresh t searchPath).script p
  :=
  script_congr (h.outlineNow_eq hsound hp)

/-- A name is resolved into the same definition. -/
theorem resolve_eq (hsound : t.IsSound) {name : String}
    (hlooked : ∀ module ∈ Survey.modulesFor name, Survey.candidates searchPath module ⊆ looked) :
  (fresh t' searchPath).resolve name = (fresh t searchPath).resolve name
  := by
  apply resolve_congr
  · exact fun module hmodule => h.locate_eq (hlooked module hmodule)
  · intro module hmodule p hlocate
    exact h.outlineNow_eq hsound (hlooked module hmodule (mem_candidates_of_locate hlocate))

end SameSources

namespace SameFirst

variable (h : SameFirst searchPath searchPath')

include h

theorem locate_eq (t : FileTree) (name : String) :
  (fresh t searchPath').locate name none = (fresh t searchPath).locate name none
  := by
  have hfound := h (Survey.moduleFileIn t name) fun e e' hequal => by
    have hsame : Option.Rel t.Same _ _ := moduleFileIn_congr hequal name
    generalize Survey.moduleFileIn t name e = found at hsame
    generalize Survey.moduleFileIn t name e' = found' at hsame
    cases hsame <;> rfl
  rw [locate_fresh, locate_fresh, hfound]

/-- A path leads to a file with the same outline. -/
theorem outlineNow_eq (hsound : t.IsSound) (p : Path) :
  outlineNow t searchPath' p = outlineNow t searchPath p
  := by
  rw [outlineNow, outlineNow, moduleNameOf, moduleNameOf, h.moduleName?_eq hsound]

/-- A script is resolved into the same definition. -/
theorem script_eq (hsound : t.IsSound) (p : Path) :
  (fresh t searchPath').script p = (fresh t searchPath).script p
  :=
  script_congr (h.outlineNow_eq hsound p)

/-- A name is resolved into the same definition. -/
theorem resolve_eq (hsound : t.IsSound) (name : String) :
  (fresh t searchPath').resolve name = (fresh t searchPath).resolve name
  :=
  resolve_congr (fun module _ => h.locate_eq t module) fun _ _ p _ => h.outlineNow_eq hsound p

end SameFirst

end Source

end CallGraph
