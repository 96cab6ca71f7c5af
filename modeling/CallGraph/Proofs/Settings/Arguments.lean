import CallGraph.Proofs.Search.Consulting
import CallGraph.Proofs.Settings.Kept
import CallGraph.Proofs.Settings.Outcomes
import CallGraph.Proofs.Settings.Resolving
import CallGraph.Proofs.Source.Naming
import CallGraph.Proofs.Source.Served
import CallGraph.Source.Grammar

/-!
# Files that are given to be tracked

A file that the user gives is tracked as a script, unless the search path has a name for it; then a module of this
name is tracked.  The file has a root in either case if the name leads back to it: if it is made of the parts of a
dotted name and the ending of a source file, and no entry before has a module of the same name.
-/

namespace CallGraph

open Source

namespace Source

variable {files : FileTree}

/-! ### Names that lead back -/

/-- Equal search paths have the file of a module at the same place. -/
theorem findSome?_moduleFileIn_congr {searchPath searchPath' : List Path} (h : (searchPath == searchPath') = true)
    (name : String) :
  Option.Rel files.Same (searchPath.findSome? (Survey.moduleFileIn files name))
    (searchPath'.findSome? (Survey.moduleFileIn files name))
  := by
  induction searchPath generalizing searchPath' with
  | nil =>
    cases searchPath' with
    | nil => exact .none
    | cons => cases h
  | cons e rest ih =>
    cases searchPath' with
    | nil => cases h
    | cons e' rest' =>
      obtain ⟨he, hrest⟩ := Bool.and_eq_true_iff.mp h
      have hfound : Option.Rel files.Same _ _ := moduleFileIn_congr he name
      rw [List.findSome?_cons, List.findSome?_cons]
      generalize Survey.moduleFileIn files name e = found at hfound
      generalize Survey.moduleFileIn files name e' = found' at hfound
      cases hfound with
      | none => exact ih hrest
      | some hsame => exact .some hsame

/-- Whether the name that a search path gives to a place leads back to it: it is that of a source file by its ending,
has no other dots than those between its parts, and no entry before the one that gives it has a module so named. -/
def LeadsBack (files : FileTree) (searchPath : List Path) (place : List String) : Prop :=
  ∀ before e after name, searchPath = before ++ e :: after → (∀ e' ∈ before, nameFrom? files place e' = none) →
    nameFrom? files place e = some name →
    (∃ root package last, files.lookup e = .ok (root, .directory) ∧ place = root ++ (package ++ [last ++ ".py"]) ∧
      ∀ part ∈ package ++ [last], IsNamePart part) ∧
    ∀ e' ∈ before, Survey.moduleFileIn files name e' = none

theorem exists_locate_of_leadsBack [Parser] (hsound : files.IsSound) {searchPath : List Path} {file : Path}
    {place : List String} {octets : ByteArray} {modified : Nat}
    (hlookup : files.lookup file = .ok (place, .file octets modified)) (hback : LeadsBack files searchPath place)
    {name : String} (hname : moduleName? files searchPath file = some name) :
  ∃ p, (fresh files searchPath).locate name none = some p ∧ files.lookup p = .ok (place, .file octets modified)
  := by
  obtain ⟨hentry, hplace, -⟩ := hsound.stands_of_lookup hlookup
  have hfirst : searchPath.findSome? (nameFrom? files place) = some name := by
    rw [moduleName?, FileTree.canonical, hlookup] at hname
    exact hname
  obtain ⟨before, e, after, rfl, hfound, hunnamed⟩ := List.findSome?_eq_some_iff.mp hfirst
  obtain ⟨⟨root, package, last, hroot, rfl, hparts⟩, hnone⟩ := hback before e after name rfl hunnamed hfound
  have hlast : IsNamePart last := hparts last (by simp)
  have hpackages : packagesBetween files root (package ++ [last ++ ".py"]) = true := by
    obtain ⟨root', more, hroot', hmore, -, hpackages⟩ := liesBelow_of_nameFrom? hsound hentry hplace hfound
    obtain ⟨rfl, -⟩ := Prod.mk.inj (Except.ok.inj (hroot'.symm.trans hroot))
    rwa [List.append_cancel_left hmore]
  have hmodule : IsModuleName name package last := by
    refine ⟨Option.some.inj ?_, hparts⟩
    rw [← hfound, nameFrom?_source hsound hroot hlast.nonempty hplace hpackages]
  obtain ⟨p, hp, hled⟩ := Survey.exists_moduleFileIn_source hmodule hsound hroot hentry
  refine ⟨p, ?_, hled⟩
  have hnonempty : name.isEmpty = false := by
    obtain ⟨start, hspelled, -⟩ := intercalate_concat package last
    rw [hmodule.spelled, hspelled]
    simp [hlast.nonempty]
  rw [Survey.locate, hnonempty, if_neg Bool.false_ne_true, Option.toList_none, List.append_nil]
  exact List.findSome?_eq_some_iff.mpr ⟨before, e, after, rfl, hp, hnone⟩

/-! ### What an index answers -/

namespace Index.Reached

variable [Parser]

variable {x : Index} (hx : x.Reached files)

include hx

/-- A name that leads to a readable file is resolved to the module there, whatever the index has read before. -/
theorem exists_resolve {name : String} {searchPath : List Path} {p : Path}
    (hlocate : (fresh files searchPath).locate name none = some p) (hread : Readable files p) :
  ∃ q, files.Same q p ∧ (Index.answer files (.resolve name searchPath) x).1 = .ok (some (moduleDefinition name q))
  := by
  let y := x.prepared (.resolve name searchPath)
  have hinUse : (y.searchPath == searchPath) = true := by
    rw [Index.searchPath_prepared]
    exact searchPathFor_beq x.searchPath name searchPath
  obtain ⟨q, hq, hsame⟩ : ∃ q, (fresh files y.searchPath).locate name none = some q ∧ files.Same q p := by
    have hfound : Option.Rel files.Same _ _ := findSome?_moduleFileIn_congr hinUse name
    unfold Survey.locate at hlocate ⊢
    split at hlocate
    case isTrue => cases hlocate
    case isFalse hnonempty =>
      rw [if_neg hnonempty]
      rw [Option.toList_none, List.append_nil] at hlocate ⊢
      change searchPath.findSome? (Survey.moduleFileIn files name) = some p at hlocate
      change ∃ q, y.searchPath.findSome? (Survey.moduleFileIn files name) = some q ∧ _
      rw [hlocate] at hfound
      generalize y.searchPath.findSome? (Survey.moduleFileIn files name) = found at hfound
      cases hfound with
      | some hsame => exact ⟨_, rfl, hsame⟩
  refine ⟨q, hsame, ?_⟩
  have hhold : ∀ before, before = files → StampsHold before files := by
    rintro _ rfl
    exact .refl _
  have hload := (mirrors_load (.refl q) (· = files) rfl hhold y (hx.isCurrent.serves_prepared _)).1
  obtain ⟨o, ho⟩ := (hread.congr hsame.symm).outlineNow y.searchPath
  rw [ho] at hload
  rw [Index.answer_resolve hq]
  change (Index.load files q y).1.map _ = _
  generalize (Index.load files q y).1 = loaded at hload
  cases hload with
  | ok => rfl

/-- Exactly the readable files are scripts. -/
theorem exists_script_iff (path : Path) (searchPath : List Path) :
  (∃ d, (Index.answer files (.script path searchPath) x).1 = .ok d) ↔ Readable files path
  := by
  constructor
  · rintro ⟨d, hd⟩
    obtain ⟨d', hd', -⟩ := hx.fresh_of_answer hd
    obtain ⟨o, ho, -⟩ := readable_of_outline_bind hd'
    exact readable_of_outlineNow ho
  · intro hread
    have hgives : Gives (·.IsFound files) ((fresh files (x.prepared (.script path searchPath)).searchPath).script path) :=
      gives_script hread
    obtain ⟨d, hd, -⟩ := hgives
    obtain ⟨d', hd', -⟩ := hx.answer_of_fresh (q := .script path searchPath) hd
    exact ⟨d', hd'⟩

end Index.Reached

end Source

/-! ### Roots for files -/

namespace Workspace.Consults

variable [Parser] {files : FileTree} {w : Workspace Index} (hw : w.Consults files)

include hw

/-- Each entry is resolved in a workspace that answers from an index. -/
theorem exists_run_rootsOf {κ : Type} [BEq κ] (resolve : κ → Search (Except ResolutionError Node)) (r : Roots κ)
    (keys : List κ) :
  (w.run (Search.rootsOf resolve r keys)).2.Consults files ∧
    ∃ outcomes, (w.run (Search.rootsOf resolve r keys)).1 = r.addAll outcomes ∧ outcomes.map (·.1) = keys ∧
      ∀ key outcome, (key, outcome) ∈ outcomes →
        ∃ w' : Workspace Index, w'.Consults files ∧ outcome = (w'.run (resolve key)).1
  :=
  Workspace.exists_run_rootsOf (·.Consults files) (fun key _ h => h.run (resolve key))
    (fun line _ h => h.run (Search.log line)) hw r keys

/-- A name that leads to a readable file gets a root with this file. -/
theorem exists_moduleRoot {searchPath : List Path} {names : List String} {name : String} (hname : name ∈ names)
    {p : Path} (hlocate : (fresh files searchPath).locate name none = some p) (hread : Readable files p) :
  ∃ node ∈ (w.run (Search.moduleRoots searchPath names)).1.nodes.values, ∃ q, node.element.path = some q ∧
    files.Same q p
  := by
  obtain ⟨-, outcomes, hrun, hkeys, houtcomes⟩ := hw.exists_run_rootsOf (Search.moduleNode searchPath) {} names
  have hresolved {outcome : Except ResolutionError Node} (hmem : (name, outcome) ∈ outcomes) :
      ∃ node q, outcome = .ok node ∧ node.element.path = some q ∧ files.Same q p := by
    obtain ⟨w', hw', houtcome⟩ := houtcomes name outcome hmem
    obtain ⟨q, hsame, hanswer⟩ := hw'.analysis.exists_resolve hlocate hread
    have hnode := w'.run_moduleNode searchPath name
    rw [moduleOutcome, hw'.answerNow_eq, hanswer, ← houtcome] at hnode
    cases outcome with
    | error e => cases hnode
    | ok node => exact ⟨node, q, rfl, congrArg Element.path (Except.ok.inj hnode), hsame⟩
  obtain ⟨⟨_, outcome⟩, hmem, rfl⟩ := List.mem_map.mp (hkeys ▸ hname)
  obtain ⟨_, -, rfl, -⟩ := hresolved hmem
  obtain ⟨key, node, hfind, hlast, hkey⟩ := Roots.exists_find?_addAll hmem
  rw [eq_of_beq hkey] at hlast
  obtain ⟨_, q, hnode, hpath, hsame⟩ := hresolved hlast
  cases hnode
  rw [Search.moduleRoots, hrun]
  exact ⟨node, Ledger.mem_values_of_find? hfind, q, hpath, hsame⟩

/-- A readable script gets a root with the place of its file. -/
theorem exists_scriptRoot {searchPath paths : List Path} {path : Path} (hpath : path ∈ paths) {place : List String}
    {octets : ByteArray} {modified : Nat} (hlookup : files.lookup path = .ok (place, .file octets modified))
    (hread : Readable files path) :
  ∃ node ∈ (w.run (Search.scriptRoots searchPath paths)).1.nodes.values,
    node.element.path = some (Path.ofNames place)
  := by
  obtain ⟨-, outcomes, hrun, hkeys, houtcomes⟩ := hw.exists_run_rootsOf (Search.scriptNode searchPath) {} paths
  have hresolved {key : Path} {outcome : Except ResolutionError Node} (hmem : (key, outcome) ∈ outcomes) :
      ((∃ node, outcome = .ok node) ↔ Readable files key) ∧
        ∀ node, outcome = .ok node → node.element.path = some (files.place key) := by
    obtain ⟨w', hw', houtcome⟩ := houtcomes key outcome hmem
    have hscript := hw'.analysis.exists_script_iff key searchPath
    have hnode := w'.run_scriptNode searchPath key
    rw [scriptOutcome, scriptAnswer, hw'.answerNow_eq, hw'.files, ← houtcome] at hnode
    generalize (Index.answer files (.script key searchPath) w'.analysis).1 = answer at hscript hnode
    rw [← hscript]
    cases answer with
    | error e =>
      cases outcome with
      | error e => simp
      | ok node => cases hnode
    | ok d =>
      cases outcome with
      | error e => cases hnode
      | ok node =>
        refine ⟨⟨fun _ => ⟨d, rfl⟩, fun _ => ⟨node, rfl⟩⟩, ?_⟩
        rintro _ ⟨⟩
        exact congrArg Element.path (Except.ok.inj hnode)
  obtain ⟨⟨_, outcome⟩, hmem, rfl⟩ := List.mem_map.mp (hkeys ▸ hpath)
  obtain ⟨_, rfl⟩ := (hresolved hmem).1.mpr hread
  obtain ⟨key, node, hfind, hlast, hkey⟩ := Roots.exists_find?_addAll hmem
  rw [Search.scriptRoots, hrun]
  refine ⟨node, Ledger.mem_values_of_find? hfind, ?_⟩
  -- The root may be that of another spelling, which leads to the same place as it can be read as well.
  obtain ⟨place', octets', modified', hlookup'⟩ := ((hresolved hlast).1.mp ⟨node, rfl⟩).exists_lookup
  have hsame := FileTree.lookup_of_file hkey hlookup' hlookup
  rw [(hresolved hlast).2 node rfl, FileTree.place, FileTree.canonical, hsame, hlookup]
  rfl

end Workspace.Consults

namespace Project

/-- Each readable file that the user gives gets a root whose path leads to it, if the name that the search path gives
it leads back to it. -/
theorem exists_rootNode_of_openStored [Parser] {δ : Type} [SettingsStore δ] {store : δ} {directory : Option Path}
    {user : UserScope}
    {runtime : List Path} {p : Project δ} {w w' : Workspace Index} (hw : w.Consults w.files) (hsound : w.files.IsSound)
    (hopened : openStored store directory user runtime w = (.ok p, w')) {file : Path} (hfile : file ∈ user.files)
    (hread : Readable w.files file) {place : List String} {entry : FileTree.Entry}
    (hlookup : w.files.lookup file = .ok (place, entry)) (hnames : ∀ name ∈ place, FileTree.IsFileName name)
    (hback : LeadsBack w.files p.settings.sysPath place) :
  ∃ node ∈ p.rootNodes, ∃ q, node.element.path = some q ∧ w.files.canonical q = w.files.canonical file
  := by
  obtain ⟨stored, merged, log, -, -, hsettings, hmodules, hscripts⟩ := exists_merged_of_openStored hopened
  have hbegun : Workspace.Consults { w with searchPath := p.settings.sysPath, log } w.files :=
    ⟨hw.analysis, hw.provider, rfl⟩
  obtain ⟨octets, modified, rfl⟩ : ∃ octets modified, entry = .file octets modified := by
    obtain ⟨place', octets, modified, hlookup'⟩ := hread.exists_lookup
    exact ⟨octets, modified, (Prod.mk.inj (Except.ok.inj (hlookup.symm.trans hlookup'))).2⟩
  have hsysPath := congrArg Settings.sysPath hsettings
  cases hname : moduleName? w.files p.settings.sysPath file with
  | some name =>
    obtain ⟨q, hlocate, hled⟩ := exists_locate_of_leadsBack hsound hlookup hback hname
    have hmem : name ∈ p.settings.modules := by
      rw [hsysPath] at hname
      rw [hsettings]
      exact List.mem_append_right _ (List.mem_filterMap.mpr ⟨file, hfile, hname⟩)
    obtain ⟨node, hnode, q', hpath, hsame⟩ :=
      hbegun.exists_moduleRoot hmem hlocate (hread.of_lookup (hled.trans hlookup.symm))
    refine ⟨node, List.mem_append_left _ (hmodules ▸ hnode), q', hpath, ?_⟩
    rw [FileTree.canonical, FileTree.canonical, hsame.lookup, hled, hlookup]
  | none =>
    have hmem : file ∈ p.settings.scripts := by
      rw [hsysPath] at hname
      rw [hsettings]
      refine List.mem_append_right _ (List.mem_filter.mpr ⟨hfile, ?_⟩)
      rw [Bool.and_eq_true, Option.isNone_iff_eq_none, FileTree.isFile, hlookup]
      exact ⟨hname, rfl⟩
    obtain ⟨node, hnode, hpath⟩ := (hbegun.run _).exists_scriptRoot hmem hlookup hread
    refine ⟨node, List.mem_append_right _ (hscripts ▸ hnode), _, hpath, ?_⟩
    have hentry := (hsound.stands_of_lookup hlookup).1
    rw [FileTree.canonical, FileTree.canonical, FileTree.lookup_ofNames hsound hentry hnames, hlookup]

/-! ### A file below the search path, one beside it, and one without an ending -/

/-- Some files, and a directory to look for modules in. -/
def given (paths : List Path) : UserScope :=
  { files := paths, addToSearchPath := [⟨"/w"⟩] }

section Given

open scoped Grammar

/-- The module in the package and the one in the other directory, which becomes a script, both have roots. -/
theorem exists_rootNode_of_openStored_shelved :
  ∃ p w', openStored ({} : MemoryStore) none (given [⟨"/w/pkg/m.py"⟩, ⟨"/w/ns/m.py"⟩]) [] (.unread shelved) =
      (.ok p, w') ∧
    ∀ file ∈ [⟨"/w/pkg/m.py"⟩, ⟨"/w/ns/m.py"⟩], ∃ node ∈ p.rootNodes, ∃ q, node.element.path = some q ∧
      shelved.canonical q = shelved.canonical file
  := by
  have hw : (Workspace.unread shelved).Consults shelved := ⟨.empty, rfl, rfl⟩
  let check (p : Project MemoryStore) : Bool := p.settings.sysPath.map Path.spelling == ["/w"]
  have hchecked : (openStored ({} : MemoryStore) none (given [⟨"/w/pkg/m.py"⟩, ⟨"/w/ns/m.py"⟩]) []
      (.unread shelved)).1.toOption.any check = true := by
    decide
  obtain ⟨p, w', hopened, hcheck⟩ := exists_of_opened hchecked
  obtain hsysPath : p.settings.sysPath = [⟨"/w"⟩] :=
    List.map_injective_iff.mpr (fun _ _ => congrArg Path.mk) (eq_of_beq hcheck)
  refine ⟨p, w', hopened, ?_⟩
  have hroot : shelved.lookup ⟨"/w"⟩ = .ok (["w"], .directory) := rfl
  have hfirst {before after : List Path} {e : Path} (h : p.settings.sysPath = before ++ e :: after) :
      before = [] ∧ e = ⟨"/w"⟩ := by
    rw [hsysPath] at h
    cases before with
    | nil => exact ⟨rfl, (List.cons.inj h).1.symm⟩
    | cons first more => simp at h
  rw [List.forall_mem_cons, List.forall_mem_singleton]
  constructor
  · have hfile : shelved.lookup ⟨"/w/pkg/m.py"⟩ = .ok (["w", "pkg", "m.py"], .file "x = 1\n".toUTF8 1) := rfl
    have hback : LeadsBack shelved p.settings.sysPath ["w", "pkg", "m.py"] := by
      intro before e after name hsplit _ _
      obtain ⟨rfl, rfl⟩ := hfirst hsplit
      exact ⟨⟨["w"], ["pkg"], "m", hroot, rfl, by decide⟩, nofun⟩
    exact exists_rootNode_of_openStored hw isSound_shelved hopened List.mem_cons_self (by decide +kernel) hfile
      (by decide) hback
  · have hfile : shelved.lookup ⟨"/w/ns/m.py"⟩ = .ok (["w", "ns", "m.py"], .file "x = 1\n".toUTF8 1) := rfl
    have hback : LeadsBack shelved p.settings.sysPath ["w", "ns", "m.py"] := by
      intro before e after name hsplit _ hname
      obtain ⟨rfl, rfl⟩ := hfirst hsplit
      have hnameless : nameFrom? shelved ["w", "ns", "m.py"] ⟨"/w"⟩ = none := by decide
      cases hname.symm.trans hnameless
    exact exists_rootNode_of_openStored hw isSound_shelved hopened (List.mem_cons_of_mem _ List.mem_cons_self)
      (by decide +kernel) hfile (by decide) hback

/-- A file without the ending of a source file. -/
def tools : FileTree :=
  { entries := [(["w"], .directory), (["w", "tool"], .file "x = 1\n".toUTF8 1)] }

/-- A file without that ending is given the name of a module, of which there is no file, and has no root. -/
theorem not_exists_rootNode_tools :
  ∃ p w', openStored ({} : MemoryStore) none (given [⟨"/w/tool"⟩]) [] (.unread tools) = (.ok p, w') ∧
    tools.isFile ⟨"/w/tool"⟩ = true ∧ Readable tools ⟨"/w/tool"⟩ ∧ p.settings.modules = ["tool"] ∧ p.rootNodes = []
  := by
  let check (p : Project MemoryStore) : Bool := p.settings.modules == ["tool"] && p.rootNodes.isEmpty
  have hchecked : (openStored ({} : MemoryStore) none (given [⟨"/w/tool"⟩]) [] (.unread tools)).1.toOption.any check =
      true := by
    decide
  obtain ⟨p, w', hopened, hcheck⟩ := exists_of_opened hchecked
  obtain ⟨hmodules, hempty⟩ := Bool.and_eq_true_iff.mp hcheck
  exact ⟨p, w', hopened, rfl, by decide +kernel, eq_of_beq hmodules, List.isEmpty_iff.mp hempty⟩

end Given

end Project

end CallGraph
