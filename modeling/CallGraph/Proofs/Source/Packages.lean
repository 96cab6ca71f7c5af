import CallGraph.Proofs.Source.Editing
import CallGraph.Proofs.Source.Naming
import CallGraph.Source.Grammar

/-!
# Names of modules while packages come and go

The name of a module hangs on the packages above its file.  An outline that is kept has the name that its file had
when it was parsed, and it is kept as long as the file has the time and length that it had then.  So, of whatever is
asked while files are written and removed, the names of modules in an answer are those of states in which something
was asked, and they are those of the files as they are wherever the packages have stayed as they were.
-/

namespace CallGraph

open Source

/-- A definition that has a name of its file for its module, if it is that of a function or class in a file. -/
def Definition.HasName (Named : Path → String → Prop) (d : Definition) : Prop :=
  d.kind = Kind.functionKind ∨ d.kind = Kind.classKind → ∀ p, d.path = some p → Named p d.module

/-- An answer whose usages, functions and classes have names of their files for their modules. -/
def Question.HasNames (Named : Path → String → Prop) : (q : Question) → q.Answer → Prop
  | .resolve _ _ => fun found => ∀ d, found = some d → d.HasName Named
  | .script _ _ => fun d => d.HasName Named
  | .callSites _ => fun _ => True
  | .targets _ => fun targets => ∀ d ∈ targets, d.HasName Named
  | .scopeNames _ => fun names => ∀ n ∈ names, n.definition.HasName Named
  | .usages _ _ => fun usages => ∀ u ∈ usages, ∃ p, u.path = some p ∧ Named p u.module
  | .enclosing _ => fun d => d.HasName Named

namespace Source

variable {files : FileTree} {searchPath : List Path}

/-! ### Computations on an index -/

/-- A computation that keeps a property of the index, and has only results with a property. -/
def Yields {α : Type} (I : Index → Prop) (P : α → Prop) (c : ExceptT ProviderError (StateM Index) α) : Prop :=
  ∀ x, I x → I (c x).2 ∧ ∀ a, (c x).1 = .ok a → P a

namespace Yields

variable {I : Index → Prop} {α β : Type} {P : α → Prop} {Q : β → Prop}

theorem pure {a : α} (h : P a) :
  Yields I P (Pure.pure a)
  := by
  intro x hx
  refine ⟨hx, ?_⟩
  rintro _ ⟨⟩
  exact h

theorem throw (e : ProviderError) :
  Yields I P (MonadExcept.throw e)
  :=
  fun _ hx => ⟨hx, nofun⟩

/-- One computation after the other. -/
theorem bind {c : ExceptT ProviderError (StateM Index) α} {f : α → ExceptT ProviderError (StateM Index) β}
    (h : Yields I P c) (hf : ∀ a, P a → Yields I Q (f a)) :
  Yields I Q (c >>= f)
  := by
  intro x hx
  have hbind : (c >>= f) x = ExceptT.bindCont f (c x).1 (c x).2 := rfl
  obtain ⟨hnext, hresult⟩ := h x hx
  rw [hbind]
  cases hc : (c x).1 with
  | ok a => exact hf a (hresult a hc) _ hnext
  | error e => exact ⟨hnext, nofun⟩

/-- Going on with the outcome of a computation, be it an error. -/
theorem attempt {c : ExceptT ProviderError (StateM Index) α}
    {f : Except ProviderError α → ExceptT ProviderError (StateM Index) β} (h : Yields I P c)
    (hok : ∀ a, P a → Yields I Q (f (.ok a))) (herror : ∀ e, Yields I Q (f (.error e))) :
  Yields I Q (ExceptT.lift c.run >>= f)
  := by
  intro x hx
  have hbind : (ExceptT.lift c.run >>= f) x = f (c x).1 (c x).2 := rfl
  obtain ⟨hnext, hresult⟩ := h x hx
  rw [hbind]
  cases hc : (c x).1 with
  | ok a => exact hok a (hresult a hc) _ hnext
  | error e => exact herror e _ hnext

end Yields

/-! ### Names in answers -/

variable {Named : Path → String → Prop}

/-- Definitions that have names of their files. -/
def AllNamed (Named : Path → String → Prop) (ds : List Definition) : Prop :=
  ∀ d ∈ ds, d.HasName Named

/-- A module is no function or class. -/
theorem hasName_of_module {d : Definition} (h : d.kind = Kind.moduleKind) :
  d.HasName Named
  := by
  intro hkind
  rw [h] at hkind
  cases hkind <;> contradiction

theorem allNamed_locatedModule (s : Survey (StateM Index)) (name : String) (extra : Option Path) :
  AllNamed Named (s.locatedModule name extra)
  := by
  intro d hd
  unfold Survey.locatedModule at hd
  obtain ⟨p, _, rfl⟩ := Option.map_eq_some_iff.mp (Option.mem_toList.mp hd)
  exact hasName_of_module rfl

section Outline

variable {o : Outline} (ho : Named o.path o.module)

include ho

theorem hasName_definition? {i : Nat} {d : Definition} (hd : o.definition? i = some d) :
  d.HasName Named
  := by
  obtain ⟨s, _, rfl⟩ := Option.map_eq_some_iff.mp hd
  rintro _ p ⟨⟩
  exact ho

theorem allNamed_definitionsNamed (owner : Nat) (name : String) :
  AllNamed Named (o.definitionsNamed owner name)
  := by
  intro d hd
  obtain ⟨i, _, hdefinition⟩ := List.mem_filterMap.mp hd
  exact hasName_definition? ho hdefinition

theorem allNamed_visible (scope : Nat) (name : String) :
  AllNamed Named (o.visible scope name)
  := by
  intro d hd
  obtain ⟨owner, _, hnamed⟩ := Outline.exists_owner_of_visible hd
  exact allNamed_definitionsNamed ho owner name d hnamed

theorem allNamed_definitionNamedAt (place : Location) :
  AllNamed Named ((o.scopeNamedAt place).bind o.definition?).toList
  := by
  intro d hd
  obtain ⟨i, _, hdefinition⟩ := Option.bind_eq_some_iff.mp (Option.mem_toList.mp hd)
  exact hasName_definition? ho hdefinition

end Outline

/-- Usages that have names of their files. -/
def UsagesNamed (Named : Path → String → Prop) (us : List Usage) : Prop :=
  ∀ u ∈ us, ∃ p, u.path = some p ∧ Named p u.module

theorem usagesNamed_map {α : Type} {o : Outline} (ho : Named o.path o.module) (name : String) (entries : List α)
    (start stop : α → Location) :
  UsagesNamed Named (entries.map fun x => o.usage name (start x) (stop x))
  := by
  intro u hu
  obtain ⟨x, _, rfl⟩ := List.mem_map.mp hu
  exact ⟨o.path, rfl, ho⟩

theorem usagesNamed_usagesOf {o : Outline} (ho : Named o.path o.module) (d : Definition) (isMember : Bool) :
  UsagesNamed Named (o.usagesOf d isMember)
  := by
  unfold Outline.usagesOf
  dsimp only
  split
  · exact usagesNamed_map ho _ _ _ _
  · split
    · exact usagesNamed_map ho _ _ _ _
    · exact List.forall_mem_nil _

theorem yields_scopeIn {I : Index → Prop} (o : Outline) (d : Definition) :
  Yields I (fun _ => True) (Survey.scopeIn (m := StateM Index) o d)
  := by
  unfold Survey.scopeIn
  split
  · exact .pure trivial
  · exact .throw _

/-! ### Look-ups -/

section Lookups

variable [Parser] {I : Index → Prop} (hload : ∀ p, Yields I (fun o => Named o.path o.module) (Index.load files p))

include hload

theorem yields_inModule (module name : String) (extra : Option Path) :
  Yields I (AllNamed Named) ((indexed files searchPath).inModule module name extra)
  := by
  have hfound (ds : List Definition) (hds : AllNamed Named ds) : Yields I (AllNamed Named)
      (if ds.isEmpty then pure ((indexed files searchPath).locatedModule (module ++ "." ++ name) extra)
        else pure ds) := by
    split
    · exact .pure (allNamed_locatedModule _ _ _)
    · exact .pure hds
  unfold Survey.inModule
  split
  · exact (hload _).bind fun o ho => hfound _ (allNamed_definitionsNamed ho 0 name)
  · exact hfound [] (List.forall_mem_nil _)

theorem yields_members (name : String) (d : Definition) :
  Yields I (AllNamed Named) ((indexed files searchPath).members name d)
  := by
  unfold Survey.members
  split
  · exact .pure (List.forall_mem_nil _)
  · apply (hload _).bind
    intro o ho
    apply Yields.pure
    cases o.scopeOf d with
    | none => exact List.forall_mem_nil _
    | some scope => exact allNamed_definitionsNamed ho scope name

theorem yields_membersOfClasses (name : String) (classes : List Definition) :
  Yields I (AllNamed Named) ((indexed files searchPath).membersOfClasses name classes)
  := by
  induction classes with
  | nil => exact .pure (List.forall_mem_nil _)
  | cons d classes ih =>
    have hrest (first : List Definition) (hfirst : AllNamed Named first) : Yields I (AllNamed Named)
        ((indexed files searchPath).membersOfClasses name classes >>= fun rest => pure (first ++ rest)) :=
      ih.bind fun rest hrest => .pure (List.forall_mem_append.mpr ⟨hfirst, hrest⟩)
    unfold Survey.membersOfClasses
    split
    · exact (yields_members hload name d).bind hrest
    · exact hrest [] (List.forall_mem_nil _)

section Scope

variable {o : Outline} (ho : Named o.path o.module)

include ho

theorem yields_lookupName (scope : Nat) (name : String) :
  Yields I (AllNamed Named) ((indexed files searchPath).lookupName o scope name)
  := by
  have hvisible := allNamed_visible ho scope name
  unfold Survey.lookupName
  split
  · rename_i d ds heq
    exact .pure (heq ▸ hvisible)
  · split
    · split
      · exact yields_inModule hload _ _ _
      · rename_i i _ _ _
        apply Yields.pure
        cases i.boundModule with
        | none => exact List.forall_mem_nil _
        | some bound => exact allNamed_locatedModule _ _ _
    · apply Yields.pure
      split
      · -- a builtin has no file
        rw [AllNamed, List.forall_mem_singleton]
        rintro _ p ⟨⟩
      · exact List.forall_mem_nil _

theorem yields_lookupAttribute (scope : Nat) (name : String) (receiver : Receiver) :
  Yields I (AllNamed Named) ((indexed files searchPath).lookupAttribute o scope name receiver)
  := by
  induction receiver generalizing name with
  | own =>
    unfold Survey.lookupAttribute
    apply Yields.pure
    cases o.enclosingClass scope with
    | none => exact List.forall_mem_nil _
    | some owner => exact allNamed_definitionsNamed ho owner name
  | object className =>
    unfold Survey.lookupAttribute
    exact (yields_lookupName hload ho scope className).bind fun _ _ => yields_membersOfClasses hload name _
  | objectOf owner className ih =>
    unfold Survey.lookupAttribute
    exact (ih className).bind fun _ _ => yields_membersOfClasses hload name _
  | dotted head rest =>
    unfold Survey.lookupAttribute
    split
    · exact yields_inModule hload _ _ _
    · split
      · exact (yields_lookupName hload ho scope head).bind fun _ _ => yields_membersOfClasses hload name _
      · exact .pure (List.forall_mem_nil _)

theorem yields_lookup (scope : Nat) (qualifier : Option String) (name : String) :
  Yields I (AllNamed Named) ((indexed files searchPath).lookup o scope qualifier name)
  := by
  unfold Survey.lookup
  split
  · exact yields_lookupName hload ho scope name
  · exact yields_lookupAttribute hload ho scope name _

theorem yields_meaning (n : NameRef) :
  Yields I (AllNamed Named) ((indexed files searchPath).meaning o n)
  := by
  unfold Survey.meaning
  split
  · exact .pure (allNamed_definitionNamedAt ho n.start)
  · exact yields_lookup hload ho _ _ _

theorem yields_namesOf (path : Path) (names : List NameRef) :
  Yields I (fun found => ∀ n ∈ found, n.definition.HasName Named)
    ((indexed files searchPath).namesOf path o names)
  := by
  induction names with
  | nil => exact .pure (List.forall_mem_nil _)
  | cons n names ih =>
    unfold Survey.namesOf
    split
    · exact ih
    · apply (yields_meaning hload ho n).bind
      intro ds hds
      apply ih.bind
      intro others hothers
      apply Yields.pure
      refine List.forall_mem_cons.mpr ⟨?_, hothers⟩
      cases ds with
      | nil =>
        -- a statement is no function or class
        intro hkind
        have hno : ¬ ("statement" = Kind.functionKind ∨ "statement" = Kind.classKind) := by decide
        exact absurd hkind hno
      | cons d ds => exact hds d List.mem_cons_self

end Scope

/-! ### Questions -/

theorem yields_targets (s : CallSite) :
  Yields I (AllNamed Named) ((indexed files searchPath).targets s)
  := by
  unfold Survey.targets
  split
  · exact .pure (List.forall_mem_nil _)
  · apply (hload _).bind
    intro o ho
    split
    · exact .pure (allNamed_definitionNamedAt ho s.start)
    · exact yields_lookup hload ho _ _ _

theorem yields_resolve (name : String) :
  Yields I (fun found => ∀ d, found = some d → d.HasName Named) ((indexed files searchPath).resolve name)
  := by
  unfold Survey.resolve
  split
  · apply (hload _).bind
    intro o _
    apply Yields.pure
    rintro d ⟨⟩
    exact hasName_of_module rfl
  · split
    · exact .pure nofun
    · split
      · exact .pure nofun
      · apply (hload _).bind
        intro o ho
        exact .pure fun d hd => allNamed_definitionsNamed ho 0 _ d (List.mem_of_mem_head? hd)

theorem yields_script (path : Path) :
  Yields I (fun d => d.HasName Named) ((indexed files searchPath).script path)
  :=
  (hload path).bind fun _ _ => .pure (hasName_of_module rfl)

theorem yields_callSites (d : Definition) :
  Yields I (fun _ => True) ((indexed files searchPath).callSites d)
  := by
  unfold Survey.callSites
  split
  · exact .pure trivial
  · exact (hload _).bind fun o _ => (yields_scopeIn o d).bind fun _ _ => .pure trivial

theorem yields_scopeNames (d : Definition) :
  Yields I (fun found => ∀ n ∈ found, n.definition.HasName Named) ((indexed files searchPath).scopeNames d)
  := by
  unfold Survey.scopeNames
  split
  · exact .pure (List.forall_mem_nil _)
  · exact (hload _).bind fun o ho => (yields_scopeIn o d).bind fun _ _ => yields_namesOf hload ho _ _

theorem yields_enclosing (u : Usage) :
  Yields I (fun d => d.HasName Named) ((indexed files searchPath).enclosing u)
  := by
  unfold Survey.enclosing
  split
  · exact .throw _
  · apply (hload _).bind
    intro o ho
    dsimp only
    split
    · rename_i d hd
      exact .pure (hasName_definition? ho hd)
    · exact .throw _

/-! ### Usages -/

theorem yields_isMember (d : Definition) :
  Yields I (fun _ => True) ((indexed files searchPath).isMember d)
  := by
  unfold Survey.isMember
  split
  · exact .pure trivial
  · exact (hload _).attempt (fun o _ => .pure trivial) fun _ => .pure trivial

theorem yields_usagesIn (d : Definition) (isMember : Bool) (paths : List Path) :
  Yields I (UsagesNamed Named) ((indexed files searchPath).usagesIn d isMember paths)
  := by
  induction paths with
  | nil => exact .pure (List.forall_mem_nil _)
  | cons p paths ih =>
    have hrest (first : List Usage) (hfirst : UsagesNamed Named first) : Yields I (UsagesNamed Named)
        ((indexed files searchPath).usagesIn d isMember paths >>= fun rest => pure (first ++ rest)) :=
      ih.bind fun rest hrest => .pure (List.forall_mem_append.mpr ⟨hfirst, hrest⟩)
    unfold Survey.usagesIn
    exact (hload p).attempt (fun o ho => hrest _ (usagesNamed_usagesOf ho d isMember))
      fun _ => hrest [] (List.forall_mem_nil _)

theorem yields_usagesOf (d : Definition) (paths : List Path) :
  Yields I (UsagesNamed Named) ((indexed files searchPath).usagesOf d paths)
  :=
  (yields_isMember hload d).bind fun isMember _ => yields_usagesIn hload d isMember _

theorem yields_usages (anchor : Anchor) (paths : List Path) :
  Yields I (UsagesNamed Named) ((indexed files searchPath).usages paths anchor)
  := by
  cases anchor with
  | definition d => exact yields_usagesOf hload d paths
  | importProbe name =>
    unfold Survey.usages
    apply (yields_resolve hload name).bind
    intro found _
    cases found with
    | none => exact .pure (List.forall_mem_nil _)
    | some d => exact yields_usagesOf hload d paths
  | callSite position name =>
    unfold Survey.usages
    dsimp only
    split
    · exact .pure (List.forall_mem_nil _)
    · apply (hload _).bind
      intro o ho
      have hfound (ds : List Definition) (_ : AllNamed Named ds) : Yields I (UsagesNamed Named)
          ((indexed files searchPath).usagesOfFirst paths o name ds) := by
        cases ds with
        | cons d ds => exact yields_usagesOf hload d paths
        | nil => exact .pure (usagesNamed_map ho _ _ _ _)
      split
      · exact (yields_targets hload _).bind hfound
      · exact hfound [] (List.forall_mem_nil _)

/-- Where outlines are loaded with names of their files, answers have names of their files. -/
theorem yields_answer (q : Question) :
  Yields I (q.HasNames Named) ((indexed files searchPath).answer q)
  := by
  cases q with
  | resolve name searchPath => exact yields_resolve hload name
  | script path searchPath => exact yields_script hload path
  | callSites scope => exact yields_callSites hload scope
  | targets site => exact yields_targets hload site
  | scopeNames scope => exact yields_scopeNames hload scope
  | usages anchor paths => exact yields_usages hload anchor paths
  | enclosing usage => exact yields_enclosing hload usage

end Lookups

/-! ### Files that are written and removed -/

/-- A name that the file at a path had in a state of the files, at the time and length that it has now.  It is the
name that the file has now, unless a directory has become a package or ceased to be one. -/
structure WasNamed (before files : FileTree) (searchPath : List Path) (p : Path) (module : String) : Prop where
  unchanged : ∃ stamp, before.stamp p = .ok stamp ∧ files.stamp p = .ok stamp
  name : module = moduleNameOf before searchPath p
  now : KeepsPackages before files → module = moduleNameOf files searchPath p

/-- A name that the file at a path had in one of the states in which something was asked. -/
def NamedIn (asked : List FileTree) (files : FileTree) (searchPath : List Path) (p : Path) (module : String) : Prop :=
  ∃ before ∈ asked, WasNamed before files searchPath p module

/-- Files that others came from by edits that show in times and lengths. -/
structure Precedes (before files : FileTree) : Prop where
  soundBefore : before.IsSound
  sound : files.IsSound
  frame : before.SameFrame files
  stamps : StampsTell before files

theorem Precedes.follows {before files : FileTree} (h : Precedes before files)
    (hpackages : KeepsPackages before files) :
  Follows before files
  :=
  ⟨h.soundBefore, h.sound, h.frame, hpackages, h.stamps⟩

theorem Precedes.refl {files : FileTree} (h : files.IsSound) :
  Precedes files files
  :=
  ⟨h, h, .refl files, (Follows.refl h).stamps⟩

/-- An index that is made ready for a question is as it was, or it keeps nothing. -/
theorem Index.prepared_cases (x : Index) (q : Question) :
  x.prepared q = x ∧ searchPathFor x.searchPath q = x.searchPath ∨ (x.prepared q).kept = []
  := by
  have huse (searchPath : List Path) :
      x.use searchPath = x ∧ (if x.searchPath == searchPath then x.searchPath else searchPath) = x.searchPath ∨
        (x.use searchPath).kept = [] := by
    unfold Index.use
    split
    · exact .inl ⟨rfl, rfl⟩
    · exact .inr rfl
  cases q <;> first | exact .inl ⟨rfl, rfl⟩ | exact huse _

section Edited

variable [Parser]

/-- The name of an outline that is loaded is one that its file had when something was asked. -/
theorem yields_load {asked : List FileTree} (hmem : files ∈ asked) (h : ∀ before ∈ asked, Precedes before files)
    (p : Path) :
  Yields (Index.Serves (· ∈ asked) searchPath) (fun o => NamedIn asked files searchPath o.path o.module)
    (Index.load files p)
  := by
  rintro x ⟨hstems, rfl⟩
  unfold Index.load
  cases hstamp : files.stamp p with
  | error e =>
    refine ⟨⟨hstems, rfl⟩, ?_⟩
    rintro _ ⟨⟩
  | ok stamp =>
    dsimp only
    cases hfind : x.find? p stamp with
    | some outline =>
      refine ⟨⟨hstems, rfl⟩, ?_⟩
      rintro _ ⟨⟩
      obtain ⟨kept, hkept, hequal, rfl, rfl⟩ := Index.exists_kept_of_find? hfind
      obtain ⟨before, hbefore, hthen, hread⟩ := hstems kept hkept
      have hprecedes := h before hbefore
      obtain ⟨place, octets, modified, hplace⟩ := lookup_of_outlineNow hread
      obtain ⟨⟨place', entry⟩, hplace'⟩ := lookup_of_stamp hstamp
      -- the path asked for leads where the path of the outline leads
      have hlookup : files.lookup kept.path = files.lookup p :=
        FileTree.lookup_congr (hprecedes.frame.twins_of_file hequal hplace hplace')
      have hnow := hlookup.trans hplace'
      obtain ⟨rfl, -⟩ := hprecedes.frame.lookup_place hplace hnow
      rw [path_of_outlineNow hread, module_of_outlineNow hread]
      refine ⟨before, hbefore, ⟨kept.stamp, hthen, ?_⟩, rfl, fun hpackages => ?_⟩
      · rw [FileTree.stamp, hlookup, ← FileTree.stamp, hstamp]
      · exact ((hprecedes.follows hpackages).moduleNameOf_eq hplace hnow x.searchPath).symm
    | none =>
      dsimp only
      cases hread : outlineNow files x.searchPath p with
      | error e =>
        refine ⟨⟨hstems, rfl⟩, ?_⟩
        rintro _ ⟨⟩
      | ok outline =>
        refine ⟨⟨hstems.keep hmem hstamp hread, rfl⟩, ?_⟩
        rintro _ ⟨⟩
        rw [path_of_outlineNow hread, module_of_outlineNow hread]
        exact ⟨files, hmem, ⟨stamp, hstamp, hstamp⟩, rfl, fun _ => rfl⟩

/-! ### Answers between edits -/

/-- The states in which something was asked since the search path in use came into use, a question in the present
state included. -/
def Editing.askedWith (asked : List FileTree) (e : Editing) (q : Question) : List FileTree :=
  e.files :: if searchPathFor e.searchPath q == e.searchPath then asked else []

/-- What comes of asking questions and writing and removing files in turn, with the states in which something was
asked since the search path in use came into use. -/
inductive Editing.Ran : List FileTree → Editing → Prop where
  | start {files : FileTree} (h : files.IsSound) : Ran [] { files }
  | ask {asked : List FileTree} {e : Editing} (h : Ran asked e) (q : Question) :
      Ran (e.askedWith asked q)
        { e with index := (Index.answer e.files q e.index).2, searchPath := searchPathFor e.searchPath q }
  | edit {asked : List FileTree} {e : Editing} (h : Ran asked e) (change : FileTree.Edit)
      (hstamps : ∀ before ∈ asked, StampsTell before (change.apply e.files)) :
      Ran asked { e with files := change.apply e.files }

namespace Editing

variable {asked : List FileTree} {e : Editing}

/-- What holds on the way: the states in which something was asked precede the present one, and all that the index
keeps was parsed in them. -/
structure Keeps (asked : List FileTree) (e : Editing) : Prop where
  sound : e.files.IsSound
  precedes : ∀ before ∈ asked, Precedes before e.files
  serves : e.index.Serves (· ∈ asked) e.searchPath

/-- The index is ready for a question with what was parsed under the search path in use. -/
theorem Keeps.prepared (h : e.Keeps asked) (q : Question) :
  (e.index.prepared q).Serves (· ∈ e.askedWith asked q) (searchPathFor e.searchPath q)
  := by
  refine ⟨?_, by rw [Index.searchPath_prepared, h.serves.searchPath]⟩
  rcases e.index.prepared_cases q with ⟨hsame, hsearchPath⟩ | hnone
  · rw [hsame]
    rw [h.serves.searchPath] at hsearchPath
    intro kept hkept
    obtain ⟨before, hbefore, hparsed⟩ := h.serves.stems kept hkept
    refine ⟨before, ?_, hparsed⟩
    rw [askedWith, hsearchPath, if_pos (beq_self_eq_true _)]
    exact List.mem_cons_of_mem _ hbefore
  · intro kept hkept
    rw [hnone] at hkept
    cases hkept

theorem Keeps.precedes_askedWith (h : e.Keeps asked) (q : Question) :
  ∀ before ∈ e.askedWith asked q, Precedes before e.files
  := by
  rw [askedWith, List.forall_mem_cons]
  refine ⟨.refl h.sound, ?_⟩
  split
  · exact h.precedes
  · exact List.forall_mem_nil _

/-- A question is answered with names of states in which something was asked. -/
theorem Keeps.answer (h : e.Keeps asked) (q : Question) :
  Index.Serves (· ∈ e.askedWith asked q) (searchPathFor e.searchPath q) (Index.answer e.files q e.index).2 ∧
    ∀ a, (Index.answer e.files q e.index).1 = .ok a →
      q.HasNames (NamedIn (e.askedWith asked q) e.files (searchPathFor e.searchPath q)) a
  :=
  yields_answer (yields_load List.mem_cons_self (h.precedes_askedWith q)) q _ (h.prepared q)

theorem Ran.keeps (h : e.Ran asked) :
  e.Keeps asked
  := by
  induction h with
  | start hsound => exact ⟨hsound, List.forall_mem_nil _, nofun, rfl⟩
  | ask _ q ih => exact ⟨ih.sound, ih.precedes_askedWith q, (ih.answer q).1⟩
  | edit _ change hstamps ih =>
    obtain ⟨hframe, hsound⟩ := ih.sound.edit change
    refine ⟨hsound, fun before hbefore => ?_, ih.serves⟩
    have hbefore' := ih.precedes before hbefore
    exact ⟨hbefore'.soundBefore, hsound, hbefore'.frame.trans hframe, hstamps before hbefore⟩

/-- In every answer, the modules of usages, functions and classes have the names that their files had, under the
search path in use, in a state in which something was asked since it came into use and in which the files had the
times and lengths that they have now.  They are the names that the files have now unless packages have changed. -/
theorem Ran.hasNames (h : e.Ran asked) (q : Question) {a : q.Answer}
    (ha : (Index.answer e.files q e.index).1 = .ok a) :
  q.HasNames (NamedIn (e.askedWith asked q) e.files (searchPathFor e.searchPath q)) a
  :=
  (h.keeps.answer q).2 a ha

end Editing

end Edited

/-! ### A package marker that is removed -/

section Unmarked

open scoped Grammar

/-- A package with a module that has a function in it. -/
def marked : FileTree :=
  { entries := [(["tmp"], .directory), (["tmp", "w"], .directory), (["tmp", "w", "pkg"], .directory),
      (["tmp", "w", "pkg", "__init__.py"], .file .empty 1),
      (["tmp", "w", "pkg", "m.py"], .file "def f():\n    pass\n".toUTF8 1)] }

/-- The marker of the package is removed. -/
def unmarking : FileTree.Edit :=
  .remove ⟨"/tmp/w/pkg/__init__.py"⟩

/-- What is asked about the function. -/
def markedQuestion : Question :=
  .resolve "pkg.m.f" [⟨"/tmp/w"⟩]

/-- The files without the marker, and the index that was asked about them before. -/
def unmarked : Editing :=
  { files := unmarking.apply marked
    index := (Index.answer marked markedQuestion {}).2
    searchPath := [⟨"/tmp/w"⟩] }

theorem ran_unmarked :
  Editing.Ran [marked] unmarked
  := by
  have hsound : marked.IsSound := FileTree.isSound_of_entries (by decide) rfl (List.forall_mem_nil _)
  have hstamps : ∀ before ∈ [marked], StampsTell before (unmarking.apply marked) := by
    rw [List.forall_mem_singleton]
    exact stampsTell_of_entries (by decide)
  exact ((Editing.Ran.start hsound).ask markedQuestion).edit unmarking hstamps

/-- The kind, file and module of a definition that is found. -/
def placeFound (r : Except ProviderError (Option Definition)) : Option (String × Option String × String) :=
  match r with
  | .ok d => d.map fun d => (d.kind, d.path.map Path.spelling, d.module)
  | .error _ => none

theorem exists_found_unmarked :
  ∃ d, (Index.answer unmarked.files markedQuestion unmarked.index).1 = .ok (some d) ∧ d.kind = Kind.functionKind ∧
    d.path = some ⟨"/tmp/w/pkg/m.py"⟩ ∧ d.module = "pkg.m"
  := by
  have hplace : placeFound (Index.answer unmarked.files markedQuestion unmarked.index).1 =
      some (Kind.functionKind, some "/tmp/w/pkg/m.py", "pkg.m") := by
    decide +kernel
  unfold placeFound at hplace
  split at hplace
  · rename_i found hfound
    obtain ⟨d, rfl, hd⟩ := Option.map_eq_some_iff.mp hplace
    simp only [Prod.mk.injEq, Option.map_eq_some_iff] at hd
    obtain ⟨hkind, ⟨⟨_⟩, hpath, rfl⟩, hmodule⟩ := hd
    exact ⟨d, hfound, hkind, hpath, hmodule⟩
  · cases hplace

/-- The function that is found without the marker has the name of its module that the marker gave it. -/
theorem Editing.Ran.hasNames_unmarked :
  ∃ d, (Index.answer unmarked.files markedQuestion unmarked.index).1 = .ok (some d) ∧
    d.kind = Kind.functionKind ∧ d.path = some ⟨"/tmp/w/pkg/m.py"⟩ ∧
    NamedIn [unmarked.files, marked] unmarked.files [⟨"/tmp/w"⟩] ⟨"/tmp/w/pkg/m.py"⟩ d.module
  := by
  obtain ⟨d, hfound, hkind, hpath, _⟩ := exists_found_unmarked
  exact ⟨d, hfound, hkind, hpath, Editing.Ran.hasNames ran_unmarked markedQuestion hfound d rfl (.inl hkind) _ hpath⟩

/-- It is not the name that its file has now. -/
theorem Editing.not_hasNames_unmarked :
  ∃ d, Editing.Ran [marked] unmarked ∧
    (Index.answer unmarked.files markedQuestion unmarked.index).1 = .ok (some d) ∧ d.kind = Kind.functionKind ∧
    d.path = some ⟨"/tmp/w/pkg/m.py"⟩ ∧
    d.module ≠ moduleNameOf unmarked.files (searchPathFor unmarked.searchPath markedQuestion) ⟨"/tmp/w/pkg/m.py"⟩
  := by
  obtain ⟨d, hfound, hkind, hpath, hmodule⟩ := exists_found_unmarked
  refine ⟨d, ran_unmarked, hfound, hkind, hpath, ?_⟩
  have hnow : moduleNameOf unmarked.files (searchPathFor unmarked.searchPath markedQuestion) ⟨"/tmp/w/pkg/m.py"⟩ =
      "m" := by
    decide +kernel
  rw [hmodule, hnow]
  decide

end Unmarked

end Source

end CallGraph
