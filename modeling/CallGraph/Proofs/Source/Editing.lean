import CallGraph.Proofs.Files.Edits
import CallGraph.Proofs.Source.Index
import CallGraph.Source.Grammar

/-!
# Files that change while an index is asked about them

An index goes on to answer while files are written and removed.  As long as no directory becomes a package or
ceases to be one, and different contents of a file differ in time or length, what it keeps does not show: every
answer is that of a reader that keeps nothing, but for the spelling of paths.  The name of a module hangs on the
packages above it, which an outline that is kept does not look at again.
-/

namespace CallGraph.Source

/-- No directory has become a package or ceased to be one. -/
def KeepsPackages (before files : FileTree) : Prop :=
  ∀ place, before.entry? place = some .directory →
    files.isPackage (Path.ofNames place) = before.isPackage (Path.ofNames place)

/-- Different contents of a file have different times or lengths. -/
def StampsTell (before files : FileTree) : Prop :=
  ∀ place octets octets' modified, before.entry? place = some (.file octets modified) →
    files.entry? place = some (.file octets' modified) → octets.size = octets'.size → octets = octets'

/-- Whether two files at a place, if there are two, have different times or lengths or the same contents. -/
def toldApart : Option FileTree.Entry → Option FileTree.Entry → Bool
  | some (.file octets modified), some (.file octets' modified') =>
    modified != modified' || octets.size != octets'.size || octets.data == octets'.data
  | _, _ => true

theorem stampsTell_of_entries {before files : FileTree}
    (h : ∀ place ∈ [] :: before.entries.map (·.1), toldApart (before.entry? place) (files.entry? place) = true) :
  StampsTell before files
  := by
  intro place octets octets' modified hentry hentry' hsize
  have htold := FileTree.forall_entry? h place _ hentry
  rw [hentry, hentry'] at htold
  have hdata : octets.data = octets'.data := by
    simpa [toldApart, hsize] using htold
  exact ByteArray.ext hdata

/-- Files that came from others by edits that keep packages and show in times and lengths. -/
structure Follows (before files : FileTree) : Prop where
  soundBefore : before.IsSound
  sound : files.IsSound
  frame : before.SameFrame files
  packages : KeepsPackages before files
  stamps : StampsTell before files

/-! ### Names of modules -/

/-- What an entry of a search path calls the file at a place. -/
def nameFrom? (files : FileTree) (place : List String) (root : Path) : Option String :=
  match files.canonical root with
  | .error _ => none
  | .ok root => nameBelow? files root (Path.ofNames place)

/-- An entry of a search path that is no directory names nothing. -/
theorem nameFrom?_eq_none {files : FileTree} (hsound : files.IsSound) {place : List String}
    {entry : FileTree.Entry} (hentry : files.entry? place = some entry)
    (hplace : ∀ name ∈ place, IsEntryName name) {root : Path}
    (hroot : ∀ names, files.lookup root ≠ .ok (names, .directory)) :
  nameFrom? files place root = none
  := by
  rw [nameFrom?, FileTree.canonical]
  cases hlookup : files.lookup root with
  | error e => rfl
  | ok found =>
    obtain ⟨names, other⟩ := found
    obtain ⟨hother, hnames, -⟩ := hsound.stands_of_lookup hlookup
    change nameBelow? files (Path.ofNames names) (Path.ofNames place) = none
    rw [nameBelow?, Path.names_ofNames hplace, Path.names_ofNames hnames]
    split
    · rename_i hbelow
      rw [Bool.and_eq_true, decide_eq_true_eq, List.isPrefixOf_iff_prefix] at hbelow
      obtain ⟨hlength, more, rfl⟩ := hbelow
      have hmore : more ≠ [] := by
        rintro rfl
        simp at hlength
      rw [hsound.directory_of_append hmore hentry] at hother
      cases hother
      exact absurd hlookup (hroot names)
    · rfl

/-- A file with two names or more above it has the first for a package, and so on. -/
theorem packagesBetween_cons_cons (files : FileTree) (root : List String) (name next : String) (rest : List String) :
  packagesBetween files root (name :: next :: rest) =
    (files.isPackage (Path.ofNames (root ++ [name])) && packagesBetween files (root ++ [name]) (next :: rest))
  :=
  rfl

/-- As long as directories stay packages, the way between two places is one of packages as before. -/
theorem packagesBetween_congr {before files : FileTree} (hsound : before.IsSound)
    (h : KeepsPackages before files) {root more : List String} {entry : FileTree.Entry}
    (hentry : before.entry? (root ++ more) = some entry) :
  packagesBetween files root more = packagesBetween before root more
  := by
  induction more generalizing root with
  | nil => rfl
  | cons name rest ih =>
    cases rest with
    | nil => rfl
    | cons next rest =>
      rw [List.append_cons] at hentry
      have hdirectory := hsound.directory_of_append (List.cons_ne_nil _ _) hentry
      rw [packagesBetween_cons_cons, packagesBetween_cons_cons, h _ hdirectory, ih hentry]

theorem Follows.nameFrom?_eq {before files : FileTree} (h : Follows before files) {place : List String}
    {entry entry' : FileTree.Entry} (hentry : before.entry? place = some entry)
    (hentry' : files.entry? place = some entry') (hplace : ∀ name ∈ place, IsEntryName name) (root : Path) :
  nameFrom? files place root = nameFrom? before place root
  := by
  by_cases hroot : ∃ names, before.lookup root = .ok (names, .directory)
  · obtain ⟨names, hlookup⟩ := hroot
    obtain ⟨-, hnames, -⟩ := h.soundBefore.stands_of_lookup hlookup
    rw [nameFrom?, nameFrom?, FileTree.canonical, FileTree.canonical, hlookup, h.frame.lookup_directory hlookup]
    change nameBelow? files (Path.ofNames names) (Path.ofNames place) =
      nameBelow? before (Path.ofNames names) (Path.ofNames place)
    rw [nameBelow?, nameBelow?, Path.names_ofNames hplace, Path.names_ofNames hnames]
    split
    · rename_i hbelow
      rw [Bool.and_eq_true, List.isPrefixOf_iff_prefix] at hbelow
      obtain ⟨-, more, rfl⟩ := hbelow
      rw [List.drop_left]
      dsimp only
      rw [packagesBetween_congr h.soundBefore h.packages hentry]
    · rfl
  · rw [not_exists] at hroot
    rw [nameFrom?_eq_none h.soundBefore hentry hplace hroot, nameFrom?_eq_none h.sound hentry' hplace]
    exact fun names hlookup => hroot names (h.frame.symm.lookup_directory hlookup)

/-- A file of both trees has the same name as a module in both. -/
theorem Follows.moduleNameOf_eq {before files : FileTree} (h : Follows before files) {p : Path}
    {place : List String} {entry entry' : FileTree.Entry} (hbefore : before.lookup p = .ok (place, entry))
    (hnow : files.lookup p = .ok (place, entry')) (searchPath : List Path) :
  moduleNameOf files searchPath p = moduleNameOf before searchPath p
  := by
  obtain ⟨hentry, hplace, -⟩ := h.soundBefore.stands_of_lookup hbefore
  obtain ⟨hentry', -, -⟩ := h.sound.stands_of_lookup hnow
  have hname : moduleName? files searchPath p = moduleName? before searchPath p := by
    rw [moduleName?, moduleName?, FileTree.canonical, FileTree.canonical, hbefore, hnow]
    exact congrArg (searchPath.findSome? ·) (funext (h.nameFrom?_eq hentry hentry' hplace))
  rw [moduleNameOf, moduleNameOf, hname]

section Parsed

variable [Parser]

/-- What was read stays what reading gives as long as times and lengths are what they were. -/
theorem Follows.stampsHold {before files : FileTree} (h : Follows before files) :
  StampsHold before files
  := by
  intro searchPath p q stamp o hequal hstamp hread hstamp'
  obtain ⟨place, octets, modified, hplace⟩ := lookup_of_outlineNow hread
  obtain ⟨⟨place', entry⟩, hplace'⟩ := lookup_of_stamp hstamp'
  have htwins := h.frame.twins_of_file hequal hplace hplace'
  have hnow : files.lookup p = .ok (place', entry) := (FileTree.lookup_congr htwins).trans hplace'
  obtain ⟨rfl, hdirectory⟩ := h.frame.lookup_place hplace hnow
  obtain ⟨hentry, -, -⟩ := h.soundBefore.stands_of_lookup hplace
  obtain ⟨hentry', -, hlink⟩ := h.sound.stands_of_lookup hnow
  have hsame : files.readOctets p = before.readOctets p := by
    rw [FileTree.stamp, hplace] at hstamp
    rw [FileTree.stamp, hplace'] at hstamp'
    cases entry with
    | directory => cases hdirectory.mp rfl
    | link target => exact absurd rfl (hlink target)
    | file octets' modified' =>
      cases hstamp
      obtain ⟨rfl, hsize⟩ := Prod.ext_iff.mp (Except.ok.inj hstamp')
      rw [FileTree.readOctets, FileTree.readOctets, hplace, hnow]
      exact congrArg _ (h.stamps _ _ _ _ hentry hentry' hsize.symm).symm
  have heq : outlineNow files searchPath p = outlineNow before searchPath p := by
    rw [outlineNow, outlineNow, hsame, h.moduleNameOf_eq hplace hnow]
  rw [← hread, ← heq]
  exact outlineNow_congr (.ofTwins htwins) searchPath

/-! ### Answers between edits -/

/-- The search path in use once a question is asked. -/
def searchPathFor (inUse : List Path) : Question → List Path
  | .resolve _ searchPath => if inUse == searchPath then inUse else searchPath
  | .script _ searchPath => if inUse == searchPath then inUse else searchPath
  | _ => inUse

omit [Parser] in
theorem Index.searchPath_use (x : Index) (searchPath : List Path) :
  (x.use searchPath).searchPath = if x.searchPath == searchPath then x.searchPath else searchPath
  := by
  unfold Index.use
  split <;> rfl

omit [Parser] in
theorem Index.searchPath_prepared (x : Index) (q : Question) :
  (x.prepared q).searchPath = searchPathFor x.searchPath q
  := by
  cases q <;> first | rfl | exact x.searchPath_use _

/-- Files, an index that is asked about them while they are edited, and the search path in use. -/
structure Editing where
  files : FileTree
  index : Index := {}
  searchPath : List Path := []

/-- What comes of asking questions and editing files in turn, with the states of the files that were seen on
the way.  Files that are written anew or removed are to leave the packages as they are. -/
inductive Editing.Reached : List FileTree → Editing → Prop where
  | start {files : FileTree} (h : files.IsSound) : Reached [files] { files }
  | ask {seen : List FileTree} {e : Editing} (h : Reached seen e) (q : Question) :
      Reached seen
        { e with index := (Index.answer e.files q e.index).2, searchPath := searchPathFor e.searchPath q }
  | edit {seen : List FileTree} {e : Editing} (h : Reached seen e) (change : FileTree.Edit)
      (hpackages : change.rewrites e.files = false → KeepsPackages e.files (change.apply e.files))
      (hstamps : ∀ before ∈ seen, StampsTell before (change.apply e.files)) :
      Reached (change.apply e.files :: seen) { e with files := change.apply e.files }

/-- The files follow all states that were seen, from which all that the index keeps stems. -/
structure Editing.Stems (seen : List FileTree) (e : Editing) : Prop where
  sound : e.files.IsSound
  mem : e.files ∈ seen
  follows : ∀ before ∈ seen, Follows before e.files
  serves : e.index.Serves (· ∈ seen) e.searchPath

omit [Parser] in
theorem Follows.refl {files : FileTree} (h : files.IsSound) :
  Follows files files
  := by
  refine ⟨h, h, .refl files, fun _ _ => rfl, fun place octets octets' modified hentry hentry' _ => ?_⟩
  rw [hentry] at hentry'
  cases hentry'
  rfl

omit [Parser] in
/-- What follows some files goes on to follow them when they are edited. -/
theorem Follows.edit {before files : FileTree} (h : Follows before files) (change : FileTree.Edit)
    (hpackages : KeepsPackages files (change.apply files)) (hstamps : StampsTell before (change.apply files)) :
  Follows before (change.apply files)
  := by
  obtain ⟨hframe, hsound⟩ := h.sound.edit change
  refine ⟨h.soundBefore, hsound, h.frame.trans hframe, fun place hplace => ?_, hstamps⟩
  rw [hpackages place ((h.frame.directory place).mpr hplace), h.packages place hplace]

namespace Editing

variable {seen : List FileTree} {e : Editing}

theorem Stems.answer (h : e.Stems seen) (q : Question) :
  Outcome e.files (q.Alike e.files) (Index.answer e.files q e.index).1
      ((fresh e.files (searchPathFor e.searchPath q)).answer q) ∧
    Index.Serves (· ∈ seen) (searchPathFor e.searchPath q) (Index.answer e.files q e.index).2
  := by
  have hanswer := h.serves.stems.answer h.mem (fun before hbefore => (h.follows before hbefore).stampsHold) q
  rwa [Index.searchPath_prepared, h.serves.searchPath] at hanswer

theorem Reached.stems (h : e.Reached seen) :
  e.Stems seen
  := by
  induction h with
  | @start files hsound =>
    refine ⟨hsound, List.mem_singleton_self _, fun before hbefore => ?_, nofun, rfl⟩
    rw [List.mem_singleton.mp hbefore]
    exact .refl hsound
  | ask _ q ih => exact ⟨ih.sound, ih.mem, ih.follows, (ih.answer q).2⟩
  | @edit seen e _ change hpackages hstamps ih =>
    have hsound := (ih.sound.edit change).2
    have hkeeps : KeepsPackages e.files (change.apply e.files) := by
      cases hrewrites : change.rewrites e.files with
      | true => exact fun place _ => ih.sound.exists_edit hrewrites _
      | false => exact hpackages hrewrites
    refine ⟨hsound, List.mem_cons_self, ?_, ?_, ih.serves.searchPath⟩
    · rw [List.forall_mem_cons]
      exact ⟨.refl hsound, fun before hbefore => (ih.follows before hbefore).edit change hkeeps
        (hstamps before hbefore)⟩
    · intro kept hkept
      obtain ⟨before, hbefore, hread⟩ := ih.serves.stems kept hkept
      exact ⟨before, List.mem_cons_of_mem _ hbefore, hread⟩

/-- Whatever was asked and edited before, the index answers what a reader that keeps nothing answers. -/
theorem Reached.answer_alike (h : e.Reached seen) (q : Question) :
  Outcome e.files (q.Alike e.files) (Index.answer e.files q e.index).1
    ((fresh e.files (searchPathFor e.searchPath q)).answer q)
  :=
  (h.stems.answer q).1

end Editing

end Parsed

open scoped Grammar

/-! ### A file that is rewritten -/

/-- A module with a function in it. -/
def drafted : FileTree :=
  { entries := [(["tmp"], .directory), (["tmp", "w"], .directory),
      (["tmp", "w", "m.py"], .file "def f():\n    pass\n".toUTF8 1)] }

/-- The function gets another name. -/
def redraft : FileTree.Edit :=
  .write ⟨"/tmp/w/m.py"⟩ "def g():\n    pass\n".toUTF8 2

/-- What is asked about it. -/
def draftQuestion : Question :=
  .resolve "m.f" [⟨"/tmp/w"⟩]

/-- After the edit the index, which keeps what it read before, answers as a reader that keeps nothing. -/
theorem Editing.Reached.answer_alike_of_redrafted :
  ∃ seen e, Editing.Reached seen e ∧ e.files = redraft.apply drafted ∧ e.index.kept.map (·.stamp) = [(1, 18)] ∧
    e.files.stamp ⟨"/tmp/w/m.py"⟩ = .ok (2, 18) ∧
    Outcome e.files (draftQuestion.Alike e.files) (Index.answer e.files draftQuestion e.index).1
      ((fresh e.files (searchPathFor e.searchPath draftQuestion)).answer draftQuestion)
  := by
  have hsound : drafted.IsSound := FileTree.isSound_of_entries (by decide) rfl (List.forall_mem_nil _)
  have hstamps : ∀ before ∈ [drafted], StampsTell before (redraft.apply drafted) := by
    rw [List.forall_mem_singleton]
    exact stampsTell_of_entries (by decide)
  have hpackages : redraft.rewrites drafted = false → KeepsPackages drafted (redraft.apply drafted) := by
    intro hnew
    exact absurd hnew (by decide)
  have hedited := ((Editing.Reached.start hsound).ask draftQuestion).edit redraft hpackages hstamps
  exact ⟨_, _, hedited, rfl, by decide +kernel, by decide +kernel, hedited.answer_alike draftQuestion⟩

/-! ### A package by way of a link -/

/-- A directory that is a package by a link to a file with another name. -/
def linked : FileTree :=
  { entries := [(["tmp"], .directory), (["tmp", "w"], .directory), (["tmp", "w", "marker.txt"], .file .empty 1),
      (["tmp", "w", "pkg"], .directory), (["tmp", "w", "pkg", "__init__.py"], .link "/tmp/w/marker.txt"),
      (["tmp", "w", "pkg", "m.py"], .file "def f():\n    pass\n".toUTF8 1)] }

/-- The file that the link leads to is removed. -/
def unlinking : FileTree.Edit :=
  .remove ⟨"/tmp/w/marker.txt"⟩

/-- What is asked about the package. -/
def linkedQuestion : Question :=
  .resolve "pkg.m.f" [⟨"/tmp/w"⟩]

/-- The module of a definition that is found. -/
def moduleFound (r : Except ProviderError (Option Definition)) : Option String :=
  match r with
  | .ok d => d.map (·.module)
  | .error _ => none

/-- A file that is removed can be what a package is one by, though it is no marker itself; then the index goes
on to name a module as it did before. -/
theorem not_answer_alike_unlinked :
  linked.IsSound ∧ linked.isFile ⟨"/tmp/w/marker.txt"⟩ = true ∧
    Path.fileName? ⟨"/tmp/w/marker.txt"⟩ ≠ some packageMarker ∧ StampsTell linked (unlinking.apply linked) ∧
    ¬ Outcome (unlinking.apply linked) (linkedQuestion.Alike (unlinking.apply linked))
      (Index.answer (unlinking.apply linked) linkedQuestion (Index.answer linked linkedQuestion {}).2).1
      ((fresh (unlinking.apply linked) (searchPathFor [⟨"/tmp/w"⟩] linkedQuestion)).answer linkedQuestion)
  := by
  refine ⟨FileTree.isSound_of_entries (by decide) rfl (List.forall_mem_nil _), by decide,
    by decide, stampsTell_of_entries (by decide), fun hout => ?_⟩
  have hkept : moduleFound (Index.answer (unlinking.apply linked) linkedQuestion
      (Index.answer linked linkedQuestion {}).2).1 = some "pkg.m" := by
    decide +kernel
  have hfresh : moduleFound ((fresh (unlinking.apply linked)
      (searchPathFor [⟨"/tmp/w"⟩] linkedQuestion)).answer linkedQuestion) = some "m" := by
    decide +kernel
  have hsame {r r' : Except ProviderError (Option Definition)} (files : FileTree)
      (h : Outcome files (Option.Rel (Definition.Alike files)) r r') : moduleFound r = moduleFound r' := by
    cases h with
    | error h => rfl
    | ok h =>
      cases h with
      | none => rfl
      | some hd => exact congrArg some hd.module.symm
  rw [hsame _ hout, hfresh] at hkept
  exact absurd hkept (by decide)

end CallGraph.Source
