import CallGraph.Proofs.Search.Conduct
import CallGraph.Proofs.Search.Indexed
import CallGraph.Proofs.Settings.Arguments
import CallGraph.Source.Grammar
import Mathlib.Data.List.ReduceOption
import Mathlib.Data.List.Sort

/-!
# What is shown of the members of a package

The members of a package are listed by the names in its directory, are given dotted names by their places below the
search path, and are found again under these names.  A member whose dotted name leads back to it is shown by the module
in its own file: its own name has no further dot, no link stands there, no entry before that of the package provides the
dotted name, and a subpackage stands beside no source file of the same name.  Any other member is shown by one row at
most.
-/

namespace CallGraph

open Source

/-! ### Listings -/

namespace PackageMembers

variable {t : FileTree} {d : Path} {place : List String}

/-- Whether a name in a directory is that of a source file. -/
def isSource (t : FileTree) (d : Path) (name : String) : Bool :=
  !t.isDirectory (d.child name) && ((d.child name).extension? == some "py" && name != packageMarker)

/-- Whether a name in a directory is that of a package. -/
def isSubpackage (t : FileTree) (d : Path) (name : String) : Bool :=
  t.isDirectory (d.child name) && (name != "__pycache__" && t.isPackage (d.child name))

/-- Name by name, the source files and the packages are collected. -/
theorem foldl_add (m : PackageMembers) (names : List String) :
  (names.foldl (add t d) m).files = m.files ++ (names.filter (isSource t d)).map d.child ∧
    (names.foldl (add t d) m).packages = m.packages ++ (names.filter (isSubpackage t d)).map d.child
  := by
  induction names generalizing m with
  | nil => simp
  | cons name names ih =>
    have hadd : (m.add t d name).files = m.files ++ ([name].filter (isSource t d)).map d.child ∧
        (m.add t d name).packages = m.packages ++ ([name].filter (isSubpackage t d)).map d.child := by
      rw [List.filter_singleton, List.filter_singleton, add, isSource, isSubpackage]
      cases t.isDirectory (d.child name) with
      | true => cases hcache : name == "__pycache__" <;> cases t.isPackage (d.child name) <;> simp [bne, hcache]
      | false => cases (d.child name).extension? == some "py" && name != packageMarker <;> simp
    obtain ⟨hfiles, hpackages⟩ := ih (m.add t d name)
    rw [List.foldl_cons, hfiles, hpackages, hadd.1, hadd.2, List.append_assoc, List.append_assoc, ← List.map_append,
      ← List.map_append, ← List.filter_append, ← List.filter_append]
    exact ⟨rfl, rfl⟩

/-- The names of the source files and of the packages in a directory, each in order. -/
structure Lists (t : FileTree) (d : Path) (place sources packages : List String) : Prop where
  sourcesOrdered : sources.Pairwise (· < ·)
  packagesOrdered : packages.Pairwise (· < ·)
  mem_sources : ∀ name, name ∈ sources ↔ (t.entry? (place ++ [name])).isSome = true ∧
    t.isDirectory (d.child name) = false ∧ (∃ stem, stem ≠ "" ∧ name = stem ++ ".py") ∧ name ≠ packageMarker
  mem_packages : ∀ name, name ∈ packages ↔ (t.entry? (place ++ [name])).isSome = true ∧
    t.isDirectory (d.child name) = true ∧ name ≠ "__pycache__" ∧ t.exists ((d.child name).child packageMarker) = true

/-- There is one way to list a directory. -/
theorem Lists.unique {sources packages sources' packages' : List String} (h : Lists t d place sources packages)
    (h' : Lists t d place sources' packages') :
  sources = sources' ∧ packages = packages'
  :=
  ⟨h.sourcesOrdered.eq_of_mem_iff h'.sourcesOrdered
      fun name => (h.mem_sources name).trans (h'.mem_sources name).symm,
    h.packagesOrdered.eq_of_mem_iff h'.packagesOrdered
      fun name => (h.mem_packages name).trans (h'.mem_packages name).symm⟩

/-- The members of a package are listed by their names. -/
theorem exists_lists (hproper : t.IsProper) (hlookup : t.lookup d = .ok (place, .directory)) :
  ∃ m sources packages, list t d = .ok m ∧ m.files = sources.map d.child ∧ m.packages = packages.map d.child ∧
    Lists t d place sources packages
  := by
  obtain ⟨names, hlist, hordered, hmem⟩ := hproper.exists_list hlookup
  obtain ⟨hfiles, hpackages⟩ := foldl_add (t := t) (d := d) {} names
  refine ⟨_, _, _, ?_, hfiles, hpackages, hordered.filter _, hordered.filter _, ?_, ?_⟩
  · rw [list, hlist]
    rfl
  · intro name
    rw [List.mem_filter, hmem]
    refine and_congr_right fun hstands => ?_
    have hname : IsEntryName name := by
      obtain ⟨e, he, heq⟩ := List.mem_map.mp (FileTree.isSome_entry?_concat.mp hstands)
      exact hproper.named e he name (by simp [heq])
    rw [isSource, Bool.and_eq_true, Bool.and_eq_true, Bool.not_eq_true', beq_iff_eq, bne_iff_ne,
      Path.extension?_child hname]
  · intro name
    rw [List.mem_filter, hmem, isSubpackage, Bool.and_eq_true, Bool.and_eq_true, bne_iff_ne]
    rfl

end PackageMembers

/-! ### Members that their names lead back to -/

namespace Source

variable {files : FileTree} {searchPath : List Path}

/-- A package below an entry of a search path, with nothing but packages in between and below no entry before. -/
structure PackagePlace (files : FileTree) (searchPath : List Path) where
  before : List Path
  entry : Path
  after : List Path
  /-- Where the entry leads to. -/
  root : List String
  /-- The names from there to the package, its own the last. -/
  way : List String
  split : searchPath = before ++ entry :: after
  leads : files.lookup entry = .ok (root, .directory)
  packages : packagesBetween files root (way ++ [packageMarker]) = true
  first : ∀ e ∈ before, ¬ LiesBelow files (root ++ way ++ [packageMarker]) e
  parts : ∀ part ∈ way, IsNamePart part

namespace PackagePlace

variable (k : PackagePlace files searchPath)

/-- The place of the package. -/
def place : List String :=
  k.root ++ k.way

/-- The path of what stands in the package, down from the entry. -/
def pathOf (names : List String) : Path :=
  (k.way ++ names).foldl Path.child k.entry

/-- The dotted name of a member. -/
def dotted (part : String) : String :=
  ".".intercalate (k.way ++ [part])

/-- A name in the package, the last part of the dotted name of this member, and its file.  The name has no further dot,
no link stands there, and a package has neither the name of a source file beside it nor that of their ending. -/
inductive Plain : String → String → Path → Prop where
  | source {part : String} {octets : ByteArray} {modified : Nat} (hpart : IsNamePart part)
      (hentry : files.entry? (k.place ++ [part ++ ".py"]) = some (.file octets modified)) :
      Plain (part ++ ".py") part (k.pathOf [part ++ ".py"])
  | package {part : String} (hpart : IsNamePart part) (hending : part ≠ "py")
      (hentry : files.entry? (k.place ++ [part]) = some .directory)
      (hbeside : files.isFile (k.pathOf [part ++ ".py"]) = false) :
      Plain part part (k.pathOf [part, packageMarker])

variable {k}

theorem isModuleName {part : String} (hpart : IsNamePart part) :
  IsModuleName (k.dotted part) k.way part
  := by
  refine ⟨rfl, ?_⟩
  rw [List.forall_mem_append, List.forall_mem_singleton]
  exact ⟨k.parts, hpart⟩

/-- What stands in the package is named below the entry of the package. -/
theorem moduleName?_child (hsound : files.IsSound) {d : Path} (hd : files.lookup d = .ok (k.place, .directory))
    {name found : String} (hname : FileTree.IsFileName name) {entry : FileTree.Entry}
    (hentry : files.entry? (k.place ++ [name]) = some entry) (hlink : ∀ target, entry ≠ .link target)
    (hnamed : nameFrom? files (k.place ++ [name]) k.entry = some found) :
  moduleName? files searchPath (d.child name) = some found
  := by
  have hlookup := (FileTree.leads_of_lookup hd).lookup_child hname hentry hlink
  have hplace := (hsound.stands_of_lookup hlookup).2.1
  rw [moduleName?, FileTree.canonical, hlookup]
  change searchPath.findSome? (nameFrom? files (k.place ++ [name])) = some found
  refine List.findSome?_eq_some_iff.mpr ⟨k.before, k.entry, k.after, k.split, hnamed, fun e he => ?_⟩
  cases hfrom : nameFrom? files (k.place ++ [name]) e with
  | none => rfl
  | some other => exact absurd (liesBelow_concat (liesBelow_of_nameFrom? hsound hentry hplace hfrom)) (k.first e he)

namespace Plain

variable {name part : String} {own : Path} (h : k.Plain name part own) (hsound : files.IsSound)

include h hsound

/-- A member has the dotted name that is made of those on the way and its own. -/
theorem moduleName?_eq {d : Path} (hd : files.lookup d = .ok (k.place, .directory)) :
  moduleName? files searchPath (d.child name) = some (k.dotted part)
  := by
  have hplace : ∀ name ∈ k.place, IsEntryName name := (hsound.stands_of_lookup hd).2.1
  have hstands {name : String} (hname : FileTree.IsFileName name) :
      ∀ name' ∈ k.root ++ (k.way ++ [name]), IsEntryName name' := by
    rw [← List.append_assoc, List.forall_mem_append, List.forall_mem_singleton]
    exact ⟨hplace, hname.isEntryName⟩
  have hpackages (name : String) : packagesBetween files k.root (k.way ++ [name]) = true :=
    (packagesBetween_concat k.root k.way name packageMarker).trans k.packages
  cases h with
  | source hpart hentry =>
    apply moduleName?_child hsound hd hpart.isFileName_source hentry nofun
    rw [place, List.append_assoc]
    exact nameFrom?_source hsound k.leads hpart.nonempty (hstands hpart.isFileName_source) (hpackages _)
  | package hpart hending hentry _ =>
    apply moduleName?_child hsound hd hpart.isFileName hentry nofun
    rw [place, List.append_assoc]
    exact nameFrom?_package hsound k.leads hpart hending (hstands hpart.isFileName) (hpackages _)

/-- A member that can be read, and whose name no entry before provides, is located at its own file. -/
theorem exists_locate [Parser] (hread : Readable files own)
    (hbefore : ∀ e ∈ k.before, Survey.moduleFileIn files (k.dotted part) e = none) :
  ∃ p, (fresh files searchPath).locate (k.dotted part) none = some p ∧ files.lookup p = files.lookup own
  := by
  have hlocate {p : Path} (hpart : IsNamePart part) (hp : Survey.moduleFileIn files (k.dotted part) k.entry = some p) :
      (fresh files searchPath).locate (k.dotted part) none = some p := by
    have hnonempty : (k.dotted part).isEmpty = false := isEmpty_intercalate_concat k.way hpart.nonempty
    rw [Survey.locate, hnonempty, if_neg Bool.false_ne_true, Option.toList_none, List.append_nil]
    exact List.findSome?_eq_some_iff.mpr ⟨k.before, k.entry, k.after, k.split, hp, hbefore⟩
  cases h with
  | source hpart hentry =>
    rw [place, List.append_assoc] at hentry
    have hmodule : IsModuleName (k.dotted part) k.way part := isModuleName hpart
    obtain ⟨p, hp, hlookup⟩ := Survey.exists_moduleFileIn_source hmodule hsound k.leads hentry
    refine ⟨p, hlocate hpart hp, hlookup.trans (Eq.symm ?_)⟩
    apply (FileTree.leads_of_lookup k.leads).lookup_file hsound (by simp) _ hentry
    exact Survey.isFileName_of_mem_moduleSteps hmodule List.mem_cons_self
  | package hpart _ _ hbeside =>
    have hspelled := (FileTree.spelled_of_find (FileTree.find_of_lookup k.leads)).2
    have hmarker : files.isFile (k.pathOf [name, packageMarker]) = true := by
      obtain ⟨found, octets, modified, hlookup⟩ := hread.exists_lookup
      rw [FileTree.isFile, hlookup]
    obtain ⟨p, hp, hlookup⟩ := Survey.exists_moduleFileIn_marker (isModuleName hpart) hspelled hmarker hbeside
    exact ⟨p, hlocate hpart hp, hlookup⟩

end Plain

end PackagePlace

end Source

/-! ### Resolved members -/

/-- A vertex shows the module in a file. -/
def Vertex.ShowsModuleIn (files : FileTree) (own : Path) (v : Vertex) : Prop :=
  v.element.isModule = true ∧ ∃ q, v.element.path = some q ∧ files.canonical q = files.canonical own

/-- A vertex shows the module in one file. -/
theorem Vertex.ShowsModuleIn.canonical_eq {files : FileTree} {own own' : Path} {v : Vertex}
    (h : v.ShowsModuleIn files own) (h' : v.ShowsModuleIn files own') :
  files.canonical own = files.canonical own'
  := by
  obtain ⟨-, q, hq, hown⟩ := h
  obtain ⟨-, q', hq', hown'⟩ := h'
  obtain rfl := Option.some.inj (hq.symm.trans hq')
  exact hown.symm.trans hown'

namespace Workspace.Consults

variable [Parser] {files : FileTree} {w : Workspace Index} (hw : w.Consults files)

include hw

/-- A name that leads to a readable file is resolved into the vertex of the module there. -/
theorem exists_run_moduleVertex {searchPath : List Path} {name : String} {p : Path}
    (hlocate : (fresh files searchPath).locate name none = some p) (hread : Readable files p) :
  ∃ v, (w.run (Search.moduleVertex searchPath name)).1 = .ok v ∧ v.ShowsModuleIn files p
  := by
  obtain ⟨q, hsame, hanswer⟩ := hw.analysis.exists_resolve hlocate hread
  have hasked : (w.run (Search.ask (.resolve name searchPath) none)).1 = .ok (some (moduleDefinition name q)) :=
    (hw.answerNow_eq _).trans hanswer
  refine ⟨.ofDefinition .definition ⟨some q, .known 1 0, .unknown⟩ (moduleDefinition name q), ?_, rfl, q, rfl, ?_⟩
  · rw [Search.moduleVertex, run_bind, hasked]
    rfl
  · rw [FileTree.canonical, FileTree.canonical, hsame.lookup]

/-- Names are resolved one after the other, and those that cannot be resolved are left out. -/
theorem exists_run_moduleVertices {α : Type} (searchPath : List Path) (name? : α → Option String) (l : List α) :
  ∃ outcomes : List (Option Vertex),
    (w.run (Search.moduleVertices searchPath (l.filterMap name?))).1 = outcomes.reduceOption ∧
    List.Forall₂ (fun a outcome => ∃ w' : Workspace Index, w'.Consults files ∧
      outcome = (name? a).bind fun name => (w'.run (Search.moduleVertex searchPath name)).1.toOption) l outcomes
  := by
  induction l generalizing w with
  | nil => exact ⟨[], rfl, .nil⟩
  | cons a l ih =>
    cases hname : name? a with
    | none =>
      obtain ⟨outcomes, hrun, hall⟩ := ih hw
      refine ⟨none :: outcomes, ?_, .cons ⟨w, hw, by rw [hname]; rfl⟩ hall⟩
      rw [List.filterMap_cons_none hname, hrun]
      rfl
    | some name =>
      obtain ⟨outcomes, hrun, hall⟩ := ih (hw.run (Search.moduleVertex searchPath name))
      refine ⟨(w.run (Search.moduleVertex searchPath name)).1.toOption :: outcomes, ?_,
        .cons ⟨w, hw, by rw [hname]; rfl⟩ hall⟩
      rw [List.filterMap_cons_some hname, Search.moduleVertices, run_bind, run_bind, hrun]
      cases (w.run (Search.moduleVertex searchPath name)).1 <;> rfl

/-- The members of a package are resolved in the order in which they are listed. -/
theorem exists_run_memberVertices {marker directory : Path} (hparent : marker.parent? = some directory)
    {m : PackageMembers} (hlist : PackageMembers.list files directory = .ok m) (package : String) :
  ∃ w' : Workspace Index, w'.Consults files ∧ (w.run (Search.memberVertices marker package)).1 =
    (w'.run (Search.moduleVertices w.searchPath
      ((m.files ++ m.packages).filterMap (moduleName? files w.searchPath)))).1
  := by
  obtain rfl := hw.files
  rw [Search.memberVertices, hparent]
  dsimp only
  rw [run_bind, run_bind]
  have hlisted : PackageMembers.list ((w.run (Search.request .searchPath)).2.run (Search.request .files)).1 directory =
      .ok m := hlist
  rw [hlisted]
  dsimp only
  cases m.warning? package with
  | none => exact ⟨w, hw, rfl⟩
  | some warning => exact ⟨_, hw.run (Search.log warning), rfl⟩

/-! ### What follows the members -/

variable {token : Token} (hlive : w.searches.isCancelled token = false)

include hlive

/-- A question of which a failure goes no further has a result, unless the index cancels it. -/
theorem exists_run_askContained {q : Question} (hq : (Index.answer files q w.analysis).1 ≠ .error .cancelled)
    (default : q.Answer) (context : String) :
  ∃ a, (w.run (Finding.askContained q token default context).run).1 = .ok a
  := by
  rw [← hw.run_ask q hlive] at hq
  unfold Finding.askContained
  rw [run_bind_lift]
  generalize w.run (Search.ask q (some token)) = asked at hq ⊢
  obtain ⟨result, w₁⟩ := asked
  cases result with
  | ok a => exact ⟨a, rfl⟩
  | error e =>
    refine ⟨default, ?_⟩
    cases e with
    | cancelled => exact absurd rfl hq
    | failed | notFound | unparsable | outside =>
      unfold Finding.contained
      dsimp only
      rw [run_bind_lift]
      rfl

/-- The search for what call sites give has a result: a failure at one of them goes no further. -/
theorem exists_run_sitesVertices (sites : List CallSite) :
  ∃ vs, (w.run (Finding.sitesVertices token sites).run).1 = .ok vs
  := by
  induction sites generalizing w with
  | nil => exact ⟨[], rfl⟩
  | cons site sites ih =>
    obtain ⟨targets, htargets⟩ := hw.exists_run_askContained hlive (q := .targets site)
      (hw.analysis.answer_ne_cancelled fun _ => uncancelled_targets site) [] s!"while finding definitions of {site.name}"
    obtain ⟨rest, hrest⟩ := ih (hw.run _) ((hw.isCancelled_run _ token).trans hlive)
    refine ⟨siteVertices site targets ++ rest, ?_⟩
    rw [Finding.sitesVertices, run_bind_ok (run_checkpoint hlive), run_bind_of_ok htargets, run_bind_of_ok hrest]
    rfl

/-- What stands inside a definition that is found follows the members, out of the experimental mode. -/
theorem exists_run_insideVertices (hmode : w.getConfig.1.experimentalMode = false) {d : Definition}
    (hd : d.IsFound files) (members : List Vertex) :
  ∃ inside, (w.run (Finding.insideVertices d token members).run).1 = .ok (members ++ inside)
  := by
  have hmoded : (w.run (Search.request .config)).1.experimentalMode = false := hmode
  rw [Finding.insideVertices, Finding.request, run_bind_lift]
  dsimp only
  rw [hmoded, if_neg Bool.false_ne_true]
  have hw₁ := hw.run (Search.request .config)
  have hlive₁ := (hw.isCancelled_run (Search.request .config) token).trans hlive
  generalize (w.run (Search.request .config)).2 = w₁ at hw₁ hlive₁
  obtain ⟨sites, hsites⟩ : ∃ sites, (w₁.run (Finding.ask (.callSites d) (some token)).run).1 = .ok sites := by
    obtain ⟨found, hfound, -⟩ := gives_callSites hd
    obtain ⟨sites, hsites, -⟩ := hw₁.analysis.answer_of_fresh (q := .callSites d) hfound
    exact ⟨sites, (hw₁.run_ask (.callSites d) hlive₁).trans hsites⟩
  obtain ⟨inside, hinside⟩ := (hw₁.run (Finding.ask (.callSites d) (some token)).run).exists_run_sitesVertices
    ((hw₁.isCancelled_run _ token).trans hlive₁) sites
  have hfound : (w₁.run (Finding.callSiteVertices d token).run).1 = .ok inside := by
    rw [Finding.callSiteVertices, run_bind_of_ok hsites, hinside]
  refine ⟨inside, ?_⟩
  rw [run_bind_of_ok hfound]
  rfl

end Workspace.Consults

/-! ### Children of a package -/

/-- What is shown of a member that its name leads back to: the module in its own file, if this can be read and no entry
before that of the package provides the name. -/
def Source.PackagePlace.Shows {files : FileTree} {searchPath : List Path} (k : PackagePlace files searchPath)
    (name : String) (outcome : Option Vertex) : Prop :=
  ∀ part own, k.Plain name part own → Readable files own →
    (∀ e ∈ k.before, Survey.moduleFileIn files (k.dotted part) e = none) →
    ∃ v, outcome = some v ∧ v.ShowsModuleIn files own

namespace Workspace

/-- Members come before what stands inside a scope. -/
theorem prefix_of_run_insideVertices {σ : Type} {w : Workspace σ} {d : Definition} {token : Token}
    {members rows : List Vertex} (h : (w.run (Finding.insideVertices d token members).run).1 = .ok rows) :
  members <+: rows
  := by
  obtain ⟨config, -, h⟩ := exists_of_run_bind h
  dsimp only at h
  split at h
  all_goals
    obtain ⟨inside, -, h⟩ := exists_of_run_bind h
    exact ⟨inside, Except.ok.inj h⟩

namespace Consults

variable [Parser] {files : FileTree} {w : Workspace Index} (hw : w.Consults files) {token : Token}
  (hlive : w.searches.isCancelled token = false)

include hw

/-- The names of a package in order, and what each of them comes to. -/
theorem exists_run_members (hsound : files.IsSound) (hproper : files.IsProper) {marker directory : Path}
    (hparent : marker.parent? = some directory) (k : PackagePlace files w.searchPath)
    (hdirectory : files.lookup directory = .ok (k.place, .directory)) (package : String) :
  ∃ sources packages outcomes, PackageMembers.Lists files directory k.place sources packages ∧
    List.Forall₂ k.Shows (sources ++ packages) outcomes ∧
    (w.run (Search.memberVertices marker package)).1 = outcomes.reduceOption
  := by
  obtain ⟨m, sources, packages, hlist, hfiles, hpackages, hlists⟩ := PackageMembers.exists_lists hproper hdirectory
  obtain ⟨w₁, hw₁, hrun⟩ := hw.exists_run_memberVertices hparent hlist package
  rw [hfiles, hpackages, ← List.map_append, List.filterMap_map] at hrun
  obtain ⟨outcomes, houtcomes, hall⟩ := hw₁.exists_run_moduleVertices w.searchPath
    (moduleName? files w.searchPath ∘ directory.child) (sources ++ packages)
  refine ⟨sources, packages, outcomes, hlists, hall.imp ?_, hrun.trans houtcomes⟩
  rintro name _ ⟨w₂, hw₂, rfl⟩ part own hplain hread hbefore
  obtain ⟨p, hlocate, hlookup⟩ := hplain.exists_locate hsound hread hbefore
  obtain ⟨v, hv, hmodule, q, hq, hcanonical⟩ := hw₂.exists_run_moduleVertex hlocate (hread.of_lookup hlookup)
  refine ⟨v, ?_, hmodule, q, hq, ?_⟩
  · rw [Function.comp_apply, hplain.moduleName?_eq hsound hdirectory, Option.bind_some, hv]
    rfl
  · rw [hcanonical, FileTree.canonical, FileTree.canonical, hlookup]

include hlive

/-- The members of a package are found unless the search was cancelled. -/
theorem run_memberVertices {v : Vertex} {marker : Path} (hmarker : v.packageMarker? = some marker)
    {members : List Vertex} (hmembers : (w.run (Search.memberVertices marker v.element.name)).1 = members) :
  (w.run (Finding.memberVertices v token).run).1 = .ok members
  := by
  rw [Finding.memberVertices, hmarker]
  dsimp only
  rw [run_bind_lift, hmembers, run_bind_ok (run_checkpoint ((hw.isCancelled_run _ token).trans hlive))]
  rfl

/-- The members of a package are found, one row or none for each source file and each package in its directory, and come
before what stands inside the package. -/
theorem run_children_package (hsound : files.IsSound) (hproper : files.IsProper) {v : Vertex} {d : Definition}
    (hd : v.definition = some d) {marker directory : Path} (hmarker : v.packageMarker? = some marker)
    (hparent : marker.parent? = some directory) (k : PackagePlace files w.searchPath)
    (hdirectory : files.lookup directory = .ok (k.place, .directory)) (hmodule : d.isModule = true)
    (hpath : d.path = some marker) (hread : Readable files marker) :
  ∃ sources packages outcomes, PackageMembers.Lists files directory k.place sources packages ∧
    List.Forall₂ k.Shows (sources ++ packages) outcomes ∧
    (w.run (Finding.memberVertices v token).run).1 = .ok outcomes.reduceOption ∧
    (∀ rows, (w.run (Finding.children v token).run).1 = .ok rows → outcomes.reduceOption <+: rows) ∧
    (w.getConfig.1.experimentalMode = false → ∃ inside,
      (w.run (Finding.children v token).run).1 = .ok (outcomes.reduceOption ++ inside))
  := by
  obtain ⟨sources, packages, outcomes, hlists, hall, hrun⟩ :=
    hw.exists_run_members hsound hproper hparent k hdirectory v.element.name
  have hmembers : (w.run (Finding.memberVertices v token).run).1 = .ok outcomes.reduceOption :=
    hw.run_memberVertices hlive hmarker hrun
  have hchildren : w.run (Finding.children v token).run =
      (w.run (Finding.memberVertices v token).run).2.run
        (Finding.insideVertices d token outcomes.reduceOption).run := by
    rw [Finding.children_eq hd, run_bind_ok (run_checkpoint hlive), run_bind_of_ok hmembers]
  refine ⟨sources, packages, outcomes, hlists, hall, hmembers, fun rows hrows => ?_, fun hmode => ?_⟩
  · rw [hchildren] at hrows
    exact prefix_of_run_insideVertices hrows
  · obtain ⟨o, ho⟩ := hread.outlineNow []
    have hfound : d.IsFound files := by
      apply isFound_module ho hmodule
      intro p hp
      exact Option.some.inj (hp.symm.trans hpath)
    rw [hchildren]
    exact (hw.run _).exists_run_insideVertices ((hw.isCancelled_run _ token).trans hlive)
      ((congrArg ConfigValues.experimentalMode (getConfig_run _ w)).trans hmode) hfound _

end Consults

end Workspace

/-! ### A package with a module and a subpackage -/

/-- A package as a vertex. -/
def packagedVertex : Vertex :=
  .ofDefinition .definition ⟨some ⟨"/w/pkg/__init__.py"⟩, .known 1 0, .unknown⟩
    (moduleDefinition "pkg" ⟨"/w/pkg/__init__.py"⟩)

theorem packageMarker?_packagedVertex :
  packagedVertex.packageMarker? = some ⟨"/w/pkg/__init__.py"⟩ ∧
    (⟨"/w/pkg/__init__.py"⟩ : Path).parent? = some ⟨"/w/pkg"⟩
  :=
  ⟨rfl, rfl⟩

section Looking

open scoped Grammar

/-- A workspace over files that looks for modules in one directory. -/
def Workspace.looking (files : FileTree) : Workspace Index :=
  { Workspace.unread files with searchPath := [⟨"/w"⟩] }

theorem Workspace.consults_looking (files : FileTree) :
  (looking files).Consults files
  :=
  ⟨.empty, rfl, rfl⟩

/-- A package with a module and a subpackage. -/
def stocked : FileTree where
  entries := [(["w"], .directory), (["w", "pkg"], .directory), (["w", "pkg", "__init__.py"], .file .empty 1),
    (["w", "pkg", "sub"], .directory), (["w", "pkg", "sub", "__init__.py"], .file .empty 2),
    (["w", "pkg", "m.py"], .file .empty 3)]

/-- Where the package stands. -/
def stockedPlace : PackagePlace stocked [⟨"/w"⟩] where
  before := []
  entry := ⟨"/w"⟩
  after := []
  root := ["w"]
  way := ["pkg"]
  split := rfl
  leads := rfl
  packages := by decide +kernel
  first := nofun
  parts := by decide

theorem lists_stocked :
  PackageMembers.Lists stocked ⟨"/w/pkg"⟩ stockedPlace.place ["m.py"] ["sub"]
  := by
  -- What stands in the package has one of three names.
  have hstands (name : String) : (stocked.entry? (stockedPlace.place ++ [name])).isSome = true ↔
      name = "__init__.py" ∨ name = "sub" ∨ name = "m.py" := by
    rw [FileTree.isSome_entry?_concat]
    simp [stocked, stockedPlace, PackagePlace.place]
  refine ⟨List.pairwise_singleton _ _, List.pairwise_singleton _ _, fun name => ?_, fun name => ?_⟩
  · rw [hstands, List.mem_singleton]
    constructor
    · rintro rfl
      exact ⟨by simp, rfl, ⟨"m", by decide, by decide⟩, by decide⟩
    · rintro ⟨rfl | rfl | rfl, hfile, -, hother⟩
      · exact absurd rfl hother
      · exact absurd hfile (by decide)
      · rfl
  · rw [hstands, List.mem_singleton]
    constructor
    · rintro rfl
      exact ⟨by simp, rfl, by decide, rfl⟩
    · rintro ⟨rfl | rfl | rfl, hdirectory, -⟩
      · exact absurd hdirectory (by decide)
      · rfl
      · exact absurd hdirectory (by decide)

/-- The module and the subpackage are the first rows. -/
theorem Workspace.Consults.run_children_package_stocked :
  ∃ v v' inside,
    ((looking stocked).run (Finding.children packagedVertex (.root 0)).run).1 = .ok (v :: v' :: inside) ∧
    v.ShowsModuleIn stocked ⟨"/w/pkg/m.py"⟩ ∧ v'.ShowsModuleIn stocked ⟨"/w/pkg/sub/__init__.py"⟩
  := by
  have hlive : (looking stocked).searches.isCancelled (.root 0) = false := rfl
  have hsound : stocked.IsSound := FileTree.isSound_of_entries (by decide) (by decide) (by decide)
  have hproper : stocked.IsProper := ⟨by decide, by decide⟩
  obtain ⟨hmarker, hparent⟩ := packageMarker?_packagedVertex
  obtain ⟨sources, packages, outcomes, hlists, hall, -, -, hchildren⟩ :=
    (consults_looking stocked).run_children_package hlive hsound hproper rfl hmarker hparent stockedPlace rfl rfl rfl
      (by decide +kernel)
  obtain ⟨rfl, rfl⟩ := hlists.unique lists_stocked
  cases hall with
  | cons hfirst hrest =>
    cases hrest with
    | cons hsecond hrest =>
      cases hrest
      have hm : IsNamePart "m" := by decide
      have hsub : IsNamePart "sub" := by decide
      have hsource : stockedPlace.Plain "m.py" "m" ⟨"/w/pkg/m.py"⟩ := .source hm rfl
      have hpackage : stockedPlace.Plain "sub" "sub" ⟨"/w/pkg/sub/__init__.py"⟩ :=
        .package hsub (by decide) rfl (by decide +kernel)
      obtain ⟨v, rfl, hv⟩ := hfirst _ _ hsource (by decide +kernel) nofun
      obtain ⟨v', rfl, hv'⟩ := hsecond _ _ hpackage (by decide +kernel) nofun
      obtain ⟨inside, hinside⟩ := hchildren rfl
      exact ⟨v, v', inside, hinside, hv, hv'⟩

/-! ### Members that their names do not lead back to -/

/-- A package with a module and a subpackage of one name, a module with a further dot in its name, a link to another
file, and a package of compiled files. -/
def cluttered : FileTree where
  entries := [(["x.py"], .file .empty 1), (["w"], .directory), (["w", "pkg"], .directory),
    (["w", "pkg", "__init__.py"], .file .empty 2), (["w", "pkg", "__pycache__"], .directory),
    (["w", "pkg", "__pycache__", "__init__.py"], .file .empty 3), (["w", "pkg", "a"], .directory),
    (["w", "pkg", "a", "__init__.py"], .file .empty 4), (["w", "pkg", "a", "b.py"], .file .empty 5),
    (["w", "pkg", "a.b.py"], .file .empty 6), (["w", "pkg", "a.py"], .file .empty 7),
    (["w", "pkg", "link.py"], .link "/x.py")]

/-- The files of members that are not shown. -/
def clutter : List Path :=
  [⟨"/w/pkg/a.b.py"⟩, ⟨"/w/pkg/link.py"⟩, ⟨"/w/pkg/a/__init__.py"⟩, ⟨"/w/pkg/__pycache__/__init__.py"⟩]

theorem list_cluttered :
  PackageMembers.list cluttered ⟨"/w/pkg"⟩ = .ok
    { files := [⟨"/w/pkg/a.b.py"⟩, ⟨"/w/pkg/a.py"⟩, ⟨"/w/pkg/link.py"⟩], packages := [⟨"/w/pkg/a"⟩] }
  := by
  have hlist : cluttered.list ⟨"/w/pkg"⟩ =
      .ok ["__init__.py", "__pycache__", "a", "a.b.py", "a.py", "link.py"] := by
    have hordered : ["__init__.py", "__pycache__", "a", "a.b.py", "a.py", "link.py"].Pairwise
        fun a b => (!decide (b < a)) = true := by decide
    exact congrArg Except.ok (List.mergeSort_of_pairwise hordered)
  rw [PackageMembers.list, hlist]
  rfl

/-- The dotted names of the members in order: two are the same, one is that of a module in the subpackage, and the link
has none. -/
theorem moduleName?_cluttered :
  [⟨"/w/pkg/a.b.py"⟩, ⟨"/w/pkg/a.py"⟩, ⟨"/w/pkg/link.py"⟩, ⟨"/w/pkg/a"⟩].map (moduleName? cluttered [⟨"/w"⟩]) =
    [some "pkg.a.b", some "pkg.a", none, some "pkg.a"]
  := by
  decide +kernel

theorem readable_cluttered :
  ∀ p ∈ ⟨"/w/pkg/__init__.py"⟩ :: ⟨"/w/pkg/a.py"⟩ :: ⟨"/w/pkg/a/b.py"⟩ :: clutter, Readable cluttered p
  := by
  decide +kernel

namespace Workspace

/-- The rows are those of the modules that the dotted names lead to. -/
theorem exists_run_members_cluttered :
  ∃ u v v', ((looking cluttered).run (Search.memberVertices ⟨"/w/pkg/__init__.py"⟩ "pkg")).1 = [u, v, v'] ∧
    u.ShowsModuleIn cluttered ⟨"/w/pkg/a/b.py"⟩ ∧ v.ShowsModuleIn cluttered ⟨"/w/pkg/a.py"⟩ ∧
    v'.ShowsModuleIn cluttered ⟨"/w/pkg/a.py"⟩
  := by
  obtain ⟨w₁, hw₁, hrun⟩ :=
    (consults_looking cluttered).exists_run_memberVertices packageMarker?_packagedVertex.2 list_cluttered "pkg"
  obtain ⟨outcomes, houtcomes, hall⟩ := hw₁.exists_run_moduleVertices [⟨"/w"⟩] id
    ([⟨"/w/pkg/a.b.py"⟩, ⟨"/w/pkg/a.py"⟩, ⟨"/w/pkg/link.py"⟩, ⟨"/w/pkg/a"⟩].map (moduleName? cluttered [⟨"/w"⟩]))
  rw [List.filterMap_map] at houtcomes
  rw [moduleName?_cluttered] at hall
  simp only [List.forall₂_cons_left_iff, List.forall₂_nil_left_iff] at hall
  obtain ⟨_, _, ⟨w₂, hw₂, rfl⟩, ⟨_, _, ⟨w₃, hw₃, rfl⟩, ⟨_, _, ⟨_, _, rfl⟩, ⟨_, _, ⟨w₄, hw₄, rfl⟩, rfl, rfl⟩, rfl⟩, rfl⟩,
    rfl⟩ := hall
  have hdotted : (fresh cluttered [⟨"/w"⟩]).locate "pkg.a.b" none = some ⟨"/w/pkg/a/b.py"⟩ := rfl
  have hmodule : (fresh cluttered [⟨"/w"⟩]).locate "pkg.a" none = some ⟨"/w/pkg/a.py"⟩ := rfl
  obtain ⟨u, hu, hushows⟩ := hw₂.exists_run_moduleVertex hdotted (readable_cluttered _ (by simp))
  obtain ⟨v, hv, hvshows⟩ := hw₃.exists_run_moduleVertex hmodule (readable_cluttered _ (by simp))
  obtain ⟨v', hv', hvshows'⟩ := hw₄.exists_run_moduleVertex hmodule (readable_cluttered _ (by simp))
  refine ⟨u, v, v', hrun.trans (houtcomes.trans ?_), hushows, hvshows, hvshows'⟩
  simp only [id, Option.bind_some, Option.bind_none, hu, hv, hv']
  rfl

/-- Of such members only the module is shown as what it is: though all files can be read, the subpackage, the module
with a dot in its name, the file behind the link and the compiled package are not shown, the module is shown twice, and
another module besides. -/
theorem Consults.not_showsModuleIn_cluttered :
  (∀ p ∈ ⟨"/w/pkg/__init__.py"⟩ :: ⟨"/w/pkg/a.py"⟩ :: ⟨"/w/pkg/a/b.py"⟩ :: clutter, Readable cluttered p) ∧
    ∃ u v v', ((looking cluttered).run (Finding.memberVertices packagedVertex (.root 0)).run).1 = .ok [u, v, v'] ∧
      u.ShowsModuleIn cluttered ⟨"/w/pkg/a/b.py"⟩ ∧ v.ShowsModuleIn cluttered ⟨"/w/pkg/a.py"⟩ ∧
      v'.ShowsModuleIn cluttered ⟨"/w/pkg/a.py"⟩ ∧
      ∀ own ∈ clutter, ∀ member ∈ [u, v, v'], ¬ member.ShowsModuleIn cluttered own
  := by
  obtain ⟨u, v, v', hmembers, hu, hv, hv'⟩ := exists_run_members_cluttered
  refine ⟨readable_cluttered, u, v, v', ?_, hu, hv, hv', fun own hown => ?_⟩
  · exact (consults_looking cluttered).run_memberVertices rfl packageMarker?_packagedVertex.1 hmembers
  -- The files that are shown stand at other places than those that are not.
  have hapart : ∀ own ∈ clutter, ∀ p ∈ [⟨"/w/pkg/a/b.py"⟩, ⟨"/w/pkg/a.py"⟩],
      (cluttered.canonical p).toOption.map Path.spelling ≠ (cluttered.canonical own).toOption.map Path.spelling := by
    decide +kernel
  have hnot {member : Vertex} {p : Path} (hp : p ∈ [⟨"/w/pkg/a/b.py"⟩, ⟨"/w/pkg/a.py"⟩])
      (hshows : member.ShowsModuleIn cluttered p) : ¬ member.ShowsModuleIn cluttered own :=
    fun h => hapart own hown p hp (by rw [hshows.canonical_eq h])
  rw [List.forall_mem_cons, List.forall_mem_cons, List.forall_mem_singleton]
  exact ⟨hnot (by simp) hu, hnot (by simp) hv, hnot (by simp) hv'⟩

end Workspace

end Looking

end CallGraph
