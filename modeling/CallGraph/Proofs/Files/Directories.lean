import CallGraph.Proofs.Files.Edits
import Mathlib.Logic.Relation

/-!
# What stands in a directory

A path leads to a directory if the steps of its components end there.  What its children lead to can be read
off the entries of that directory, and changes of single files elsewhere do not matter.  Making a directory
and those above it ends with a path that leads to one.
-/

namespace CallGraph

open Relation (ReflTransGen)

/-! ### Children of a path -/

/-- The components of a child are those of its directory and its name. -/
theorem Path.child_spec (d : Path) {name : String} (h : IsEntryName name) :
  (d.child name).components = d.components ++ [.name name] ∧ (d.child name).asksForDirectory = false ∧
    (d.child name).isAbsolute = d.isAbsolute
  := by
  obtain ⟨hplain, hname⟩ := h
  have hrelative : isAbsolute ⟨name⟩ = false := by
    rw [isAbsolute, beq_eq_false_iff_ne]
    intro hhead
    exact hplain (List.mem_of_mem_head? hhead)
  have hasks : asksForDirectory ⟨name⟩ = false := by
    rw [asksForDirectory, pieces_of_notMem hplain]
    change Option.isNone (componentOf name.toList) = false
    rw [hname]
    rfl
  have hinner : innerComponents name.toList = [.name name] := by
    rw [innerComponents, pieces_of_notMem hplain, List.filterMap_cons, hname]
    rfl
  by_cases hd : d.spelling.toList = []
  · have hempty : d.spelling = "" := String.toList_eq_nil_iff.mp hd
    have hchild : d.child name = ⟨name⟩ := by
      rw [child, join, hrelative, hempty]
      rfl
    have hhere : name.toList ≠ ['.'] := by
      intro hdot
      rw [hdot] at hname
      cases hname
    have hcomponents : components ⟨name⟩ = [.name name] := by
      rw [components, componentsOf_piece hplain, if_neg hhere, hname]
      rfl
    have hnone : d.components = [] := componentsOf_eq_nil.mpr hd
    rw [hchild, hcomponents, hnone]
    refine ⟨rfl, hasks, ?_⟩
    rw [hrelative, isAbsolute, hd]
    rfl
  · obtain ⟨hcomponents, hasks'⟩ := @join_spec d ⟨name⟩ hd hrelative
    have hcomponents : (d.child name).components = d.components ++ [.name name] := by
      rw [child, hcomponents, hinner]
    refine ⟨hcomponents, hasks'.trans hasks, ?_⟩
    obtain ⟨first, rest, hfirst⟩ := List.exists_cons_of_ne_nil fun hnil => hd (componentsOf_eq_nil.mp hnil)
    rw [Bool.eq_iff_iff, isAbsolute, isAbsolute, beq_iff_eq, beq_iff_eq, ← head?_componentsOf, ← head?_componentsOf]
    change (d.child name).components.head? = _ ↔ _
    rw [hcomponents, components, hfirst]
    rfl

/-- The names of source files are those with a stem and the ending. -/
theorem Path.extension?_child {d : Path} {name : String} (hname : IsEntryName name) :
  (d.child name).extension? = some "py" ↔ ∃ stem, stem ≠ "" ∧ name = stem ++ ".py"
  := by
  have hfile : (d.child name).fileName? = some name := by
    rw [Path.fileName?_eq_some, (d.child_spec hname).1, List.getLast?_concat]
  rw [Path.extension?, hfile, Option.bind_some, Option.map_eq_some_iff]
  constructor
  · rintro ⟨after, hafter, hpy⟩
    obtain rfl : after = "py".toList := by rw [← hpy, String.toList_ofList]
    obtain ⟨stem, hsplit⟩ : ∃ stem, Path.splitName name.toList = (stem, some "py".toList) := ⟨_, Prod.ext rfl hafter⟩
    obtain ⟨hspelled, hstem⟩ := Path.eq_append_of_splitName hsplit
    refine ⟨String.ofList stem, by simpa using hstem, String.toList_injective ?_⟩
    rw [hspelled, String.toList_append, String.toList_ofList (l := stem)]
    rfl
  · rintro ⟨stem, hstem, rfl⟩
    refine ⟨"py".toList, ?_, String.ofList_toList⟩
    rw [String.toList_append]
    exact congrArg Prod.snd (Path.splitName_append (by simpa using hstem) (by decide) (by decide))

namespace FileTree

/-- A child is one step further. -/
theorem stepsOf_child (d : Path) {name : String} (h : IsEntryName name) :
  stepsOf (d.child name).spelling = stepsTo d ++ [.enter name]
  := by
  obtain ⟨hcomponents, hasks, -⟩ := d.child_spec h
  rw [stepsOf_eq, hasks, hcomponents, List.filterMap_append]
  exact List.append_nil _

theorem origin_child (t : FileTree) (d : Path) {name : String} (h : IsEntryName name) :
  t.origin (d.child name) = t.origin d
  := by
  rw [origin, origin, (d.child_spec h).2.2]

/-- The steps of a path lead to a directory. -/
structure Leads (t : FileTree) (p : Path) (place : List String) : Prop where
  named : p.spelling.toList.any (·.toNat == 0) = false
  walk : ∃ fuel, t.walk true fuel 40 (t.origin p) (stepsTo p) = .ok (.present place .directory)

theorem Leads.walks {t : FileTree} {p : Path} {place : List String} (h : t.Leads p place) :
  t.Walks true 40 (t.origin p) (stepsTo p) (.present place .directory)
  := by
  obtain ⟨fuel, hwalk⟩ := h.walk
  exact walks_of_walk hwalk

theorem Leads.ofWalks {t : FileTree} {p : Path} {place : List String}
    (hnamed : p.spelling.toList.any (·.toNat == 0) = false)
    (hway : t.Walks true 40 (t.origin p) (stepsTo p) (.present place .directory)) :
  t.Leads p place
  := by
  obtain ⟨bound, hbound, -⟩ := t.exists_linksWithin
  exact ⟨hnamed, _, hway.walk hbound le_rfl⟩

/-! ### What children lead to -/

/-- What stands at a place, as the end of a look-up. -/
def foundAt (t : FileTree) (place : List String) : Found :=
  match t.entry? place with
  | none => .absent place
  | some entry => .present place entry

variable {t t' : FileTree} {d : Path} {directory : List String} {name : String}

/-- A child is looked up among the entries of the directory. -/
theorem Leads.find_child (h : t.Leads d directory) (hname : IsEntryName name)
    (hnul : name.toList.any (·.toNat == 0) = false) {follow : Bool}
    (hlink : follow = true → ∀ target, t.entry? (directory ++ [name]) ≠ some (.link target)) :
  t.find (d.child name) follow = .ok (t.foundAt (directory ++ [name]))
  := by
  have hspelled : (d.child name).spelling.toList.any (·.toNat == 0) = false := by
    rw [any_spelling rfl rfl, (d.child_spec hname).1, List.any_append, ← any_spelling rfl rfl, h.named]
    simpa [mentions] using hnul
  have hempty : (d.child name).spelling.isEmpty = false := by
    have hne : (d.child name).spelling.toList ≠ [] := by
      intro hnil
      have hcomponents := (d.child_spec hname).1
      rw [Path.components, Path.componentsOf_eq_nil.mpr hnil] at hcomponents
      simp at hcomponents
    simpa using hne
  have hentered (links : Nat) : t.Walks follow links directory [.enter name] (t.foundAt (directory ++ [name])) := by
    unfold foundAt
    cases hentry : t.entry? (directory ++ [name]) with
    | none => exact .free hentry (.inl rfl)
    | some entry =>
      cases entry with
      | directory => exact .directory hentry .here
      | file octets modified => exact .file hentry
      | link target =>
        cases follow with
        | true => exact absurd hentry (hlink rfl target)
        | false => exact .kept hentry rfl
  rw [find_eq_ok_iff, stepsOf_child d hname, origin_child t d hname]
  exact ⟨hspelled, hempty, h.walks.append (List.cons_ne_nil _ _) hentered⟩

/-- A path whose child is found leads to a directory. -/
theorem exists_leads_of_find {follow : Bool} {found : Found} (hname : IsEntryName name)
    (h : t.find (d.child name) follow = .ok found) :
  ∃ directory, t.Leads d directory
  := by
  obtain ⟨hspelled, -, hway⟩ := find_eq_ok_iff.mp h
  rw [stepsOf_child d hname, origin_child t d hname] at hway
  obtain ⟨_, directory, hbefore, -⟩ := hway.split (List.cons_ne_nil _ _) nofun
  rw [any_spelling rfl rfl, (d.child_spec hname).1, List.any_append, Bool.or_eq_false_iff] at hspelled
  refine ⟨directory, .ofWalks ?_ hbefore⟩
  rw [any_spelling rfl rfl, hspelled.1]

/-- A path that is looked up to a directory leads there. -/
theorem leads_of_lookup {p : Path} {place : List String} (h : t.lookup p = .ok (place, .directory)) :
  t.Leads p place
  := by
  obtain ⟨hspelled, -, hway⟩ := find_eq_ok_iff.mp (find_of_lookup h)
  rw [stepsOf_eq] at hway
  split at hway
  · exact .ofWalks hspelled hway.of_demandDirectory.2
  · rw [List.append_nil] at hway
    exact .ofWalks hspelled hway

/-- A path that leads to a directory is looked up to it, unless it is empty. -/
theorem Leads.lookup (h : t.Leads d directory) (hempty : d.spelling.isEmpty = false) :
  t.lookup d = .ok (directory, .directory)
  := by
  apply lookup_of_find
  rw [find_eq_ok_iff, stepsOf_eq]
  refine ⟨h.named, hempty, ?_⟩
  split
  · exact h.walks.append (List.cons_ne_nil _ _) fun _ => .demandDirectory .here
  · rw [List.append_nil]
    exact h.walks

theorem Leads.congr {e : Path} (h : t.Leads d directory) (hequal : (d == e) = true) :
  t.Leads e directory
  := by
  have hcomponents := Path.beq_iff.mp hequal
  obtain ⟨fuel, hwalk⟩ := h.walk
  refine ⟨?_, fuel, ?_⟩
  · rw [any_spelling rfl rfl, ← hcomponents, ← any_spelling rfl rfl]
    exact h.named
  · rw [origin, stepsTo, ← isAbsolute_congr hequal, ← hcomponents]
    exact hwalk

/-- Equal paths lead to the same directory, if one of them leads to one. -/
theorem lookup_directory_congr {e : Path} (hequal : (d == e) = true) (h : t.lookup d = .ok (directory, .directory)) :
  t.lookup e = .ok (directory, .directory)
  := by
  apply ((leads_of_lookup h).congr hequal).lookup
  have hspelled := (spelled_of_find (find_of_lookup h)).2
  rw [← Bool.not_eq_true, String.isEmpty_iff, ← String.toList_eq_nil_iff, ← Path.componentsOf_eq_nil] at hspelled ⊢
  rw [Path.beq_iff] at hequal
  rwa [← Path.components, ← hequal]

/-- What a path leads to is there. -/
theorem Leads.entry? (h : t.Leads d directory) (hsound : t.IsSound) :
  t.entry? directory = some .directory
  := by
  have hsteps : ∀ name, .enter name ∈ stepsTo d → IsEntryName name := by
    intro name hmem
    have hsteps : Step.enter name ∈ stepsOf d.spelling := by
      rw [stepsOf_eq]
      exact List.mem_append_left _ hmem
    exact isEntryName_of_mem_stepsOf hsteps
  obtain ⟨hplace, hnames⟩ := hsound.directory_origin d
  cases h.walks.stands hsound hplace hnames hsteps with
  | present hentry => exact hentry

/-- A path goes on to lead to a directory among the same directories and links. -/
theorem SameFrame.leads (hframe : SameFrame t t') (h : t.Leads d directory) :
  t'.Leads d directory
  := by
  obtain ⟨entry, hway, hentry⟩ := h.walks.ofSameFrame hframe (absurd rfl)
  cases hentry rfl
  exact .ofWalks h.named (hframe.origin d ▸ hway)

/-! ### Making directories -/

/-- Where a look-up ends at a free name, nothing stands. -/
theorem entry?_of_absent {p : Path} {follow : Bool} {free : List String} (h : t.find p follow = .ok (.absent free)) :
  t.entry? free = none
  :=
  (find_eq_ok_iff.mp h).2.2.free_of_absent

/-- A way that ended at a free name ends at a directory once there is one. -/
theorem Walks.put_directory {found : List String} (hput : ∀ q, t'.entry? q =
      if q = found then some .directory else t.entry? q) {links : Nat} {place : List String} {steps : List Step}
    (h : t.Walks false links place steps (.absent found)) :
  t'.Walks true links place steps (.present found .directory)
  := by
  have hkept {q : List String} {entry : Entry} (hentry : t.entry? q = some entry) : t'.entry? q = some entry := by
    rw [hput, if_neg, hentry]
    rintro rfl
    rw [h.free_of_absent] at hentry
    cases hentry
  have hmade : t'.entry? found = some .directory := (hput found).trans (if_pos rfl)
  generalize hend : Found.absent found = ending at h
  induction h with
  | here => cases hend
  | up _ ih => exact .up (ih hend)
  | demandDirectory _ ih => exact .demandDirectory (ih hend)
  | free _ last =>
    cases hend
    -- Behind the name stands at most the demand for a directory, which is met now.
    rcases last with rfl | rfl
    · exact .directory hmade .here
    · exact .directory hmade (.demandDirectory .here)
  | directory entry _ ih => exact .directory (hkept entry) (ih hend)
  | file => cases hend
  | kept => cases hend
  | link entry _ _ ih => exact .link (hkept entry) (fun _ => rfl) (ih hend)

theorem isDirectory_iff {p : Path} :
  t.isDirectory p = true ↔ ∃ place, t.lookup p = .ok (place, .directory)
  := by
  unfold isDirectory
  split
  · rename_i place hlookup
    exact ⟨fun _ => ⟨place, hlookup⟩, fun _ => rfl⟩
  · rename_i hother
    refine ⟨nofun, ?_⟩
    rintro ⟨place, hlookup⟩
    exact absurd hlookup (hother place)

theorem eq_of_makeDirectory {p : Path} (h : t.makeDirectory p = .ok t') :
  ∃ place, t.find p false = .ok (.absent place) ∧ t' = t.put place .directory
  := by
  unfold makeDirectory at h
  cases hfind : t.find p false with
  | error e =>
    rw [hfind] at h
    cases h
  | ok found =>
    rw [hfind] at h
    cases found with
    | present place entry => cases h
    | absent place =>
      cases h
      exact ⟨place, rfl, rfl⟩

/-- A directory that was made is there, and the tree is sound. -/
theorem isDirectory_of_makeDirectory (hsound : t.IsSound) {p : Path} (h : t.makeDirectory p = .ok t') :
  t'.IsSound ∧ t'.isDirectory p = true
  := by
  obtain ⟨place, hfind, rfl⟩ := eq_of_makeDirectory h
  cases hsound.stands_of_find hfind with
  | @absent directory name hfree hdirectory hnames =>
    have hput := entry?_put (t := t) (List.append_ne_nil_of_right_ne_nil directory (List.cons_ne_nil name []))
      .directory
    have hkept {q : List String} (hentry : t.entry? q = some .directory) :
        entry? (t.put (directory ++ [name]) .directory) q = some .directory := by
      rw [hput]
      split
      · rfl
      · exact hentry
    constructor
    · refine ⟨fun {parent name'} entry hentry => ?_, hkept hsound.home, hsound.homeNames⟩
      rw [hput] at hentry
      split at hentry
      · rename_i heq
        obtain ⟨rfl, -⟩ := List.append_inj' heq rfl
        exact hkept hdirectory
      · exact hkept (hsound.parent hentry)
    · obtain ⟨hspelled, hempty, hway⟩ := find_eq_ok_iff.mp hfind
      exact isDirectory_iff.mpr ⟨_, lookup_of_find (find_eq_ok_iff.mpr ⟨hspelled, hempty, hway.put_directory hput⟩)⟩

/-- A directory is added. -/
def Gains (t t' : FileTree) : Prop :=
  ∃ p, t.makeDirectory p = .ok t'

/-- A directory and those above it are made one after the other, also if one of them cannot be. -/
theorem gains_makeDirectories (fuel : Nat) (t : FileTree) (p : Path) :
  ReflTransGen Gains t (makeDirectories fuel t p).2
  := by
  induction fuel generalizing p with
  | zero => exact .refl
  | succ fuel ih =>
    rw [makeDirectories]
    split
    case isTrue => exact .refl
    case isFalse =>
      split
      case h_1 made hmake => exact .single ⟨p, hmake⟩
      case h_2 =>
        split
        case h_1 => exact .refl
        case h_2 parent _ =>
          have habove := ih parent
          split
          case h_1 e left hleft =>
            rw [hleft] at habove
            exact habove
          case h_2 above hmade =>
            rw [hmade] at habove
            split
            case h_1 made hmake => exact habove.tail ⟨p, hmake⟩
            case h_2 => exact habove
      case h_3 => exact .refl

theorem gains_makeAll (t : FileTree) (p : Path) :
  ReflTransGen Gains t (t.makeAll p).2
  :=
  gains_makeDirectories _ t p

theorem IsSound.of_gains (hsound : t.IsSound) (h : ReflTransGen Gains t t') :
  t'.IsSound
  := by
  induction h with
  | refl => exact hsound
  | tail _ hgains ih =>
    obtain ⟨p, hmake⟩ := hgains
    exact (isDirectory_of_makeDirectory ih hmake).1

theorem isDirectory_of_demandDirectory {p : Path} {e : FileError} (h : t.demandDirectory p e = (.ok (), t')) :
  t'.isDirectory p = true
  := by
  unfold demandDirectory at h
  split at h
  case isTrue hdirectory =>
    cases h
    exact hdirectory
  case isFalse => cases h

/-- Directories that were made are there, and the tree is sound. -/
theorem isDirectory_of_makeDirectories (hsound : t.IsSound) {fuel : Nat} {p : Path}
    (h : makeDirectories fuel t p = (.ok (), t')) :
  t'.IsSound ∧ (p.spelling.isEmpty = false → t'.isDirectory p = true)
  := by
  have hgains := gains_makeDirectories fuel t p
  rw [h] at hgains
  refine ⟨hsound.of_gains hgains, fun hnonempty => ?_⟩
  cases fuel with
  | zero => cases h
  | succ fuel =>
    rw [makeDirectories, hnonempty, if_neg Bool.false_ne_true] at h
    split at h
    case h_1 made hmake =>
      cases h
      exact (isDirectory_of_makeDirectory hsound hmake).2
    case h_2 =>
      split at h
      case h_1 => cases h
      case h_2 parent _ =>
        split at h
        case h_1 => cases h
        case h_2 above hmade =>
          split at h
          case h_1 made hmake =>
            cases h
            have habove := gains_makeDirectories fuel t parent
            rw [hmade] at habove
            exact (isDirectory_of_makeDirectory (hsound.of_gains habove) hmake).2
          case h_2 => exact isDirectory_of_demandDirectory h
    case h_3 => exact isDirectory_of_demandDirectory h

/-- A directory that is there is not made again. -/
theorem makeAll_of_isDirectory {p : Path} (h : t.isDirectory p = true) :
  t.makeAll p = (.ok (), t)
  := by
  obtain ⟨place, hlookup⟩ := isDirectory_iff.mp h
  obtain ⟨hspelled, hempty, hway⟩ := find_eq_ok_iff.mp (find_of_lookup hlookup)
  obtain ⟨place', entry', hkept⟩ := hway.exists_unfollowed
  have hmake : t.makeDirectory p = .error .exists := by
    rw [makeDirectory, find_eq_ok_iff.mpr ⟨hspelled, hempty, hkept⟩]
    rfl
  rw [makeAll, makeDirectories, hempty, if_neg Bool.false_ne_true, hmake]
  dsimp only
  rw [demandDirectory, if_pos h]

/-! ### Listings -/

section Listings

variable {p : Path} {place : List String}

/-- Every entry stands at a place of its own, under names that files can have. -/
structure IsProper (t : FileTree) : Prop where
  single : (t.entries.map Prod.fst).Nodup
  named : ∀ e ∈ t.entries, ∀ name ∈ e.1, IsEntryName name

/-- Something stands at a place exactly if there is an entry for it. -/
theorem isSome_entry?_concat {name : String} :
  (t.entry? (place ++ [name])).isSome = true ↔ place ++ [name] ∈ t.entries.map Prod.fst
  := by
  have hentry : t.entry? (place ++ [name]) = t.entries.lookup (place ++ [name]) := by
    cases place <;> rfl
  rw [hentry, ← not_iff_not, Bool.not_eq_true, Option.isSome_eq_false_iff, Option.isNone_iff_eq_none,
    List.lookup_eq_none_iff, List.mem_map]
  simp only [bne_iff_ne, ne_eq, not_exists, not_and]
  exact ⟨fun h e he heq => h e he heq.symm, fun h e he heq => h e he heq.symm⟩

/-- The name that is the only one behind a place. -/
def nameBehind? (place names : List String) : Option String :=
  if names.length == place.length + 1 && isWithin place names then names.getLast? else none

theorem nameBehind?_eq_some {names : List String} {name : String} :
  nameBehind? place names = some name ↔ names = place ++ [name]
  := by
  rw [nameBehind?]
  constructor
  · intro h
    split at h
    case isFalse => cases h
    case isTrue hbelow =>
      rw [Bool.and_eq_true, beq_iff_eq, isWithin, List.isPrefixOf_iff_prefix] at hbelow
      obtain ⟨hlength, more, rfl⟩ := hbelow
      rw [List.length_append, Nat.add_left_cancel_iff, List.length_eq_one_iff] at hlength
      obtain ⟨last, rfl⟩ := hlength
      rw [List.getLast?_concat] at h
      rw [Option.some.inj h]
  · rintro rfl
    rw [if_pos, List.getLast?_concat]
    simp [isWithin]

/-- The names in a directory are those under which something stands there, each once and in order. -/
theorem IsProper.exists_list (h : t.IsProper) (hlookup : t.lookup p = .ok (place, .directory)) :
  ∃ names, t.list p = .ok names ∧ names.Pairwise (· < ·) ∧
    ∀ name, name ∈ names ↔ (t.entry? (place ++ [name])).isSome = true
  := by
  let found := (t.entries.map Prod.fst).filterMap (nameBehind? place)
  have hlist : t.list p = .ok (found.mergeSort fun a b => !decide (b < a)) := by
    dsimp only [found]
    rw [list, hlookup, List.filterMap_map]
    rfl
  have hmem (name : String) : name ∈ found ↔ (t.entry? (place ++ [name])).isSome = true := by
    rw [isSome_entry?_concat, List.mem_filterMap]
    constructor
    · rintro ⟨names, hnames, hname⟩
      rwa [← nameBehind?_eq_some.mp hname]
    · exact fun hnames => ⟨_, hnames, nameBehind?_eq_some.mpr rfl⟩
  have hdistinct : (found.mergeSort fun a b => !decide (b < a)).Nodup := by
    apply (List.mergeSort_perm _ _).nodup_iff.mpr
    refine List.Pairwise.filterMap (nameBehind? place) ?_ h.single
    rintro names names' hne name hname _ hname' rfl
    exact hne ((nameBehind?_eq_some.mp hname).trans (nameBehind?_eq_some.mp hname').symm)
  have hsorted : (found.mergeSort fun a b => !decide (b < a)).Pairwise fun a b => (!decide (b < a)) = true := by
    apply List.pairwise_mergeSort
    · intro a b c hab hbc
      rw [Bool.not_eq_true', decide_eq_false_iff_not, String.not_lt] at hab hbc ⊢
      exact String.le_trans hab hbc
    · intro a b
      rw [Bool.or_eq_true, Bool.not_eq_true', Bool.not_eq_true', decide_eq_false_iff_not, decide_eq_false_iff_not,
        String.not_lt, String.not_lt]
      exact String.le_total a b
  refine ⟨_, hlist, ?_, fun name => (List.mergeSort_perm _ _).mem_iff.trans (hmem name)⟩
  apply hsorted.imp₂ _ hdistinct
  intro a b hab hne
  rw [Bool.not_eq_true', decide_eq_false_iff_not, String.not_lt] at hab
  exact String.not_le.mp fun hba => hne (String.le_antisymm hab hba)

end Listings

end FileTree

end CallGraph
