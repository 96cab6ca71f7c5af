import CallGraph.Proofs.Files.Sound
import CallGraph.Proofs.Source.Readable

/-!
# Definitions that are found again

Where all Python files can be read, what is handed out can be asked about: every definition is found again in its
own file, and every call site and usage stands in a file that can be read.  So a question about what was handed
out has an answer, and what this answer hands out can be asked about in turn.
-/

namespace CallGraph

open Source

/-- A definition whose file, if it has one, can be read and has the scope that the definition opens. -/
def Definition.IsFound [Parser] (files : FileTree) (d : Definition) : Prop :=
  ∀ p, d.path = some p → ∃ o, outlineNow files [] p = .ok o ∧ ∃ scope, o.scopeOf d = some scope

/-- A place in a file that can be read, or in none. -/
def IsReadable (files : FileTree) (path : Option Path) : Prop :=
  ∀ p, path = some p → Readable files p

/-- A question about what was handed out.  Names of scopes are not asked for where calls are shown. -/
def Question.IsFit [Parser] (files : FileTree) : Question → Prop
  | .resolve _ _ => True
  | .script path _ => Readable files path
  | .callSites scope => scope.IsFound files
  | .targets site => IsReadable files site.path
  | .scopeNames _ => False
  | .usages (.callSite position _) _ => IsReadable files position.path
  | .usages _ _ => True
  | .enclosing usage => ∃ p, usage.path = some p ∧ Readable files p

/-- An answer that hands out only what can be asked about. -/
def Question.Serves [Parser] (files : FileTree) : (q : Question) → q.Answer → Prop
  | .resolve _ _ => fun found => ∀ d, found = some d → d.IsFound files
  | .script _ _ => fun d => d.IsFound files
  | .callSites _ => fun sites => ∀ s ∈ sites, IsReadable files s.path
  | .targets _ => fun targets => ∀ d ∈ targets, d.IsFound files
  | .scopeNames _ => fun _ => True
  | .usages _ _ => fun usages => ∀ u ∈ usages, ∃ p, u.path = some p ∧ Readable files p
  | .enclosing _ => fun d => d.IsFound files

namespace Source

/-- All files with the extension of Python's can be read. -/
def ReadsPython (files : FileTree) : Prop :=
  ∀ p : Path, p.extension? = some "py" → files.isFile p = true → Readable files p

/-- A computation that has a result with a property. -/
def Gives {α : Type} (P : α → Prop) (x : ExceptT ProviderError Id α) : Prop :=
  ∃ a, x = .ok a ∧ P a

namespace Gives

variable {α β : Type} {P : α → Prop} {Q : β → Prop}

theorem pure {a : α} (h : P a) :
  Gives P (Pure.pure a)
  :=
  ⟨a, rfl, h⟩

theorem bind {x : ExceptT ProviderError Id α} {f : α → ExceptT ProviderError Id β} (h : Gives P x)
    (hf : ∀ a, P a → Gives Q (f a)) :
  Gives Q (x >>= f)
  := by
  obtain ⟨a, rfl, ha⟩ := h
  exact hf a ha

end Gives

variable {files : FileTree} {searchPath : List Path}

/-- All Python can be read where every file holds a text. -/
theorem readsPython_of_entries (hsound : files.IsSound)
    (h : ∀ octets modified, .file octets modified ∈ files.entries.map (·.2) →
      (Utf8.decode octets).toOption.isSome = true) :
  ReadsPython files
  := by
  intro p _ hfile
  unfold FileTree.isFile at hfile
  split at hfile
  · rename_i place octets modified hlookup
    have hmem : .file octets modified ∈ files.entries.map (·.2) := by
      have hentry := (hsound.stands_of_lookup hlookup).1
      rcases FileTree.mem_entries hentry with rfl | hmem
      · cases hentry
      · exact List.mem_map.mpr ⟨_, hmem, rfl⟩
    have hread : files.readOctets p = .ok octets := by
      rw [FileTree.readOctets, hlookup]
      rfl
    obtain ⟨text, hdecode⟩ := Option.isSome_iff_exists.mp (h octets modified hmem)
    exact ⟨text, by rw [textNow, hread]; exact hdecode⟩
  · cases hfile

theorem isReadable_congr {path path' : Option Path} (h : IsReadable files path)
    (hsame : Option.Rel files.Same path path') :
  IsReadable files path'
  := by
  rintro q rfl
  obtain ⟨p, rfl, hpq⟩ := exists_of_optionRel hsame
  exact (h p rfl).congr hpq

theorem scopeContaining_lt {o : Outline} (ho : o.IsRegular) (place : Location) :
  o.scopeContaining place < o.scopes.length
  := by
  unfold Outline.scopeContaining
  apply List.foldlRecOn (motive := (· < o.scopes.length))
  · obtain ⟨file, hfile, _⟩ := ho.root
    exact (List.getElem?_eq_some_iff.mp hfile).1
  · intro best hbest i hi
    split
    · split
      · exact List.mem_range.mp hi
      · exact hbest
    · exact hbest

/-! ### Files of modules -/

theorem extension?_child_packageMarker (base : Path) :
  (base.child packageMarker).extension? = some "py"
  := by
  have hname : (base.child packageMarker).fileName? = some packageMarker := by
    rw [Path.fileName?_eq_some, Path.child]
    by_cases hbase : base.spelling.toList = []
    · have hempty : base = ⟨""⟩ := by
        cases base
        simp_all
      rw [hempty]
      decide
    · rw [(Path.join_spec hbase (by decide)).1]
      have hinner : Path.innerComponents packageMarker.toList = [.name packageMarker] := by decide
      rw [hinner, List.getLast?_concat]
  rw [Path.extension?, hname]
  decide

theorem extension?_of_moduleFileIn {module : String} {directory p : Path}
    (h : Survey.moduleFileIn files module directory = some p) :
  p.extension? = some "py"
  := by
  unfold Survey.moduleFileIn at h
  dsimp only at h
  split at h
  · rename_i hfile
    obtain rfl := Option.some.inj h
    obtain ⟨name, hname⟩ := FileTree.exists_fileName?_of_isFile hfile
    cases hbase : (directory.join ((dottedParts module).foldl Path.child ⟨""⟩)).fileName? with
    | none =>
      rw [Path.withExtension, hbase] at hname
      rw [hbase] at hname
      cases hname
    | some text => exact Path.extension?_withExtension hbase (by decide) (by decide) (by decide)
  · split at h
    · obtain rfl := Option.some.inj h
      exact extension?_child_packageMarker _
    · cases h

variable [Parser]

theorem readable_of_locate (hpy : ReadsPython files) {module : String} {extra : Option Path} {p : Path}
    (h : (fresh files searchPath).locate module extra = some p) :
  Readable files p
  := by
  apply hpy p _ (isFile_of_locate h)
  unfold Survey.locate at h
  split at h
  · cases h
  · obtain ⟨directory, _, hdirectory⟩ := List.exists_of_findSome?_eq_some h
    exact extension?_of_moduleFileIn hdirectory

/-! ### Definitions of an outline -/

section Outline

variable {path : Path} {o : Outline} (ho : outlineNow files searchPath path = .ok o)

include ho

theorem isFound_of_scopeOf {d : Definition} (hd : ∀ p, d.path = some p → p = path) {scope : Nat}
    (hscope : o.scopeOf d = some scope) :
  d.IsFound files
  := by
  intro p hp
  obtain ⟨o', ho', hscopes, _⟩ := outlineNow_searchPath ho []
  rw [hd p hp]
  exact ⟨o', ho', scope, (hscopes d).trans hscope⟩

theorem isFound_module {d : Definition} (hkind : d.isModule = true) (hd : ∀ p, d.path = some p → p = path) :
  d.IsFound files
  := by
  have hscope : o.scopeOf d = some 0 := by
    rw [Outline.scopeOf, hkind]
    rfl
  exact isFound_of_scopeOf ho hd hscope

/-- A definition that is made from a scope is found again. -/
theorem isFound_definition? {i : Nat} {d : Definition} (hd : o.definition? i = some d) :
  d.IsFound files
  := by
  obtain ⟨scope, hscope⟩ := Outline.exists_scopeOf (isRegular_of_outlineNow ho) hd
  refine isFound_of_scopeOf ho ?_ hscope
  obtain ⟨s, _, rfl⟩ := Option.map_eq_some_iff.mp hd
  rintro p ⟨⟩
  exact path_of_outlineNow ho

theorem isFound_definitionsNamed {owner : Nat} {name : String} :
  ∀ d ∈ o.definitionsNamed owner name, d.IsFound files
  := by
  intro d hd
  obtain ⟨i, _, hdefinition⟩ := List.mem_filterMap.mp hd
  exact isFound_definition? ho hdefinition

theorem isFound_visible {scope : Nat} {name : String} :
  ∀ d ∈ o.visible scope name, d.IsFound files
  := by
  intro d hd
  obtain ⟨owner, _, hnamed⟩ := Outline.exists_owner_of_visible hd
  exact isFound_definitionsNamed ho d hnamed

end Outline

/-! ### Look-ups -/

/-- Definitions that are all found again. -/
def AllFound (files : FileTree) (ds : List Definition) : Prop :=
  ∀ d ∈ ds, d.IsFound files

section Lookups

variable (hpy : ReadsPython files)

include hpy

theorem allFound_locatedModule (name : String) (extra : Option Path) :
  AllFound files ((fresh files searchPath).locatedModule name extra)
  := by
  intro d hd
  unfold Survey.locatedModule at hd
  obtain ⟨p, hp, rfl⟩ := Option.map_eq_some_iff.mp (Option.mem_toList.mp hd)
  obtain ⟨o, ho⟩ := (readable_of_locate hpy hp).outlineNow searchPath
  apply isFound_module ho rfl
  rintro q ⟨⟩
  rfl

/-- The file of a module is read. -/
theorem gives_outline_of_locate {module : String} {extra : Option Path} {p : Path}
    (h : (fresh files searchPath).locate module extra = some p) :
  Gives (fun o => outlineNow files searchPath p = .ok o) ((fresh files searchPath).outline p)
  := by
  obtain ⟨o, ho⟩ := (readable_of_locate hpy h).outlineNow searchPath
  exact ⟨o, ho, ho⟩

theorem gives_inModule (module name : String) (extra : Option Path) :
  Gives (AllFound files) ((fresh files searchPath).inModule module name extra)
  := by
  have hfound (ds : List Definition) (hds : AllFound files ds) : Gives (AllFound files)
      (if ds.isEmpty then pure ((fresh files searchPath).locatedModule (module ++ "." ++ name) extra) else pure ds) := by
    split
    · exact .pure (allFound_locatedModule hpy _ _)
    · exact .pure hds
  unfold Survey.inModule
  split
  · rename_i path hlocate
    apply (gives_outline_of_locate hpy hlocate).bind
    intro o ho
    exact hfound _ (isFound_definitionsNamed ho)
  · exact hfound [] (List.forall_mem_nil _)

section Scope

variable {path : Path} {o : Outline} (ho : outlineNow files searchPath path = .ok o)

include ho

theorem gives_lookupName (scope : Nat) (name : String) :
  Gives (AllFound files) ((fresh files searchPath).lookupName o scope name)
  := by
  have hvisible : ∀ d ∈ o.visible scope name, d.IsFound files := isFound_visible ho
  unfold Survey.lookupName
  split
  · rename_i d ds heq
    exact .pure (heq ▸ hvisible)
  · split
    · split
      · exact gives_inModule hpy _ _ _
      · rename_i i _ _ _
        apply Gives.pure
        cases i.boundModule with
        | none => exact List.forall_mem_nil _
        | some bound => exact allFound_locatedModule hpy _ _
    · apply Gives.pure
      split
      · intro d hd
        rw [List.mem_singleton.mp hd]
        exact fun p hp => by cases hp
      · exact List.forall_mem_nil _

omit ho hpy in
theorem gives_members {d : Definition} (hd : d.IsFound files) (name : String) :
  Gives (AllFound files) ((fresh files searchPath).members name d)
  := by
  unfold Survey.members
  cases hpath : d.path with
  | none => exact .pure (List.forall_mem_nil _)
  | some p =>
    obtain ⟨o, ho, _⟩ := hd p hpath
    obtain ⟨o', ho', _⟩ := outlineNow_searchPath ho searchPath
    dsimp only
    rw [outline_bind ho']
    apply Gives.pure
    cases o'.scopeOf d with
    | none => exact List.forall_mem_nil _
    | some scope => exact isFound_definitionsNamed ho'

omit ho hpy in
theorem gives_membersOfClasses {classes : List Definition} (hclasses : AllFound files classes) (name : String) :
  Gives (AllFound files) ((fresh files searchPath).membersOfClasses name classes)
  := by
  induction classes with
  | nil => exact .pure (List.forall_mem_nil _)
  | cons d classes ih =>
    rw [AllFound, List.forall_mem_cons] at hclasses
    have hrest (first : List Definition) (hfirst : AllFound files first) : Gives (AllFound files)
        ((fresh files searchPath).membersOfClasses name classes >>= fun rest => pure (first ++ rest)) := by
      apply (ih hclasses.2).bind
      exact fun rest hrest => .pure (List.forall_mem_append.mpr ⟨hfirst, hrest⟩)
    unfold Survey.membersOfClasses
    split
    · exact (gives_members hclasses.1 name).bind hrest
    · exact hrest [] (List.forall_mem_nil _)

theorem gives_lookupAttribute (scope : Nat) (name : String) (receiver : Receiver) :
  Gives (AllFound files) ((fresh files searchPath).lookupAttribute o scope name receiver)
  := by
  induction receiver generalizing name with
  | own =>
    unfold Survey.lookupAttribute
    apply Gives.pure
    cases o.enclosingClass scope with
    | none => exact List.forall_mem_nil _
    | some owner => exact isFound_definitionsNamed ho
  | object className =>
    unfold Survey.lookupAttribute
    exact (gives_lookupName hpy ho scope className).bind fun _ hclasses => gives_membersOfClasses hclasses name
  | objectOf owner className ih =>
    unfold Survey.lookupAttribute
    exact (ih className).bind fun _ hclasses => gives_membersOfClasses hclasses name
  | dotted head rest =>
    unfold Survey.lookupAttribute
    split
    · exact gives_inModule hpy _ _ _
    · split
      · exact (gives_lookupName hpy ho scope head).bind fun _ hclasses => gives_membersOfClasses hclasses name
      · exact .pure (List.forall_mem_nil _)

theorem gives_lookup (scope : Nat) (qualifier : Option String) (name : String) :
  Gives (AllFound files) ((fresh files searchPath).lookup o scope qualifier name)
  := by
  unfold Survey.lookup
  split
  · exact gives_lookupName hpy ho scope name
  · exact gives_lookupAttribute hpy ho scope name _

end Scope

/-! ### Questions -/

theorem gives_targets {s : CallSite} (hs : IsReadable files s.path) :
  Gives (AllFound files) ((fresh files searchPath).targets s)
  := by
  unfold Survey.targets
  cases hpath : s.path with
  | none => exact .pure (List.forall_mem_nil _)
  | some p =>
    obtain ⟨o, ho⟩ := (hs p hpath).outlineNow searchPath
    dsimp only
    rw [outline_bind ho]
    split
    · apply Gives.pure
      intro d hd
      obtain ⟨i, _, hdefinition⟩ := Option.bind_eq_some_iff.mp (Option.mem_toList.mp hd)
      exact isFound_definition? ho hdefinition
    · exact gives_lookup hpy ho _ _ _

theorem gives_resolve (name : String) :
  Gives (fun found => ∀ d, found = some d → d.IsFound files) ((fresh files searchPath).resolve name)
  := by
  unfold Survey.resolve
  split
  · rename_i path hlocate
    apply (gives_outline_of_locate hpy hlocate).bind
    intro o ho
    apply Gives.pure
    rintro d ⟨⟩
    apply isFound_module ho rfl
    rintro q ⟨⟩
    rfl
  · split
    · exact .pure (by rintro _ ⟨⟩)
    · split
      · exact .pure (by rintro _ ⟨⟩)
      · rename_i path hlocate
        apply (gives_outline_of_locate hpy hlocate).bind
        intro o ho
        apply Gives.pure
        intro d hd
        exact isFound_definitionsNamed ho d (List.mem_of_mem_head? hd)

end Lookups

theorem gives_script {path : Path} (hpath : Readable files path) :
  Gives (fun d => d.IsFound files) ((fresh files searchPath).script path)
  := by
  obtain ⟨o, ho⟩ := hpath.outlineNow searchPath
  unfold Survey.script
  rw [outline_bind ho]
  apply Gives.pure
  apply isFound_module ho rfl
  rintro q ⟨⟩
  rfl

theorem gives_callSites {d : Definition} (hd : d.IsFound files) :
  Gives (fun sites => ∀ s ∈ sites, IsReadable files s.path) ((fresh files searchPath).callSites d)
  := by
  unfold Survey.callSites
  cases hpath : d.path with
  | none => exact .pure (List.forall_mem_nil _)
  | some p =>
    obtain ⟨o, ho, scope, hscope⟩ := hd p hpath
    obtain ⟨o', ho', hscopes, _⟩ := outlineNow_searchPath ho searchPath
    have hscopeIn : Survey.scopeIn (m := Id) o' d = .ok scope := by
      rw [Survey.scopeIn, hscopes, hscope]
      rfl
    dsimp only
    rw [outline_bind ho', hscopeIn]
    apply Gives.pure
    intro s hs
    obtain ⟨site, _, rfl⟩ := List.mem_map.mp hs
    rintro q ⟨⟩
    exact readable_of_outlineNow ho'

/-- The scope around a usage in a file that can be read is found. -/
theorem gives_enclosing {u : Usage} {p : Path} (hpath : u.path = some p) (hp : Readable files p) :
  Gives (fun d => d.IsFound files) ((fresh files searchPath).enclosing u)
  := by
  obtain ⟨o, ho⟩ := hp.outlineNow searchPath
  have hregular := isRegular_of_outlineNow ho
  have hlt : Survey.scopeAt o ((o.nameAt u.start).map (·.scope)) u.start < o.scopes.length := by
    unfold Survey.scopeAt
    cases hname : o.nameAt u.start with
    | none => exact scopeContaining_lt hregular _
    | some n => exact hregular.name n (List.mem_of_find?_eq_some hname)
  unfold Survey.enclosing
  rw [hpath]
  dsimp only
  rw [outline_bind ho]
  split
  · rename_i d hd
    exact .pure (isFound_definition? ho hd)
  · rename_i hnone
    rw [Outline.definition?, List.getElem?_eq_getElem hlt] at hnone
    cases hnone

/-! ### Usages -/

/-- Usages that stand in files that can be read. -/
def AllReadable (files : FileTree) (us : List Usage) : Prop :=
  ∀ u ∈ us, ∃ p, u.path = some p ∧ Readable files p

theorem allReadable_map_usage {path : Path} {o : Outline} (ho : outlineNow files searchPath path = .ok o)
    (name : String) (names : List NameRef) :
  AllReadable files (names.map fun n => o.usage name n.start n.stop)
  := by
  intro u hu
  obtain ⟨n, _, rfl⟩ := List.mem_map.mp hu
  refine ⟨o.path, rfl, ?_⟩
  rw [path_of_outlineNow ho]
  exact readable_of_outlineNow ho

theorem gives_usagesOf (d : Definition) (paths : List Path) :
  Gives (AllReadable files) ((fresh files searchPath).usagesOf d paths)
  := by
  refine ⟨_, usages_fresh d paths, ?_⟩
  intro u hu
  obtain ⟨p, _, hu⟩ := List.mem_flatMap.mp hu
  obtain ⟨o, ho, hpath⟩ := exists_of_mem_usagesNow hu
  exact ⟨p, hpath, readable_of_outlineNow ho⟩

theorem gives_usages (hpy : ReadsPython files) {anchor : Anchor} {paths : List Path}
    (h : Question.IsFit files (.usages anchor paths)) :
  Gives (AllReadable files) ((fresh files searchPath).usages paths anchor)
  := by
  cases anchor with
  | definition d => exact gives_usagesOf d paths
  | importProbe name =>
    unfold Survey.usages
    apply (gives_resolve hpy name).bind
    intro found _
    cases found with
    | none => exact .pure (List.forall_mem_nil _)
    | some d => exact gives_usagesOf d paths
  | callSite position name =>
    unfold Survey.usages
    dsimp only
    cases hpath : position.path with
    | none => exact .pure (List.forall_mem_nil _)
    | some path =>
      obtain ⟨o, ho⟩ := (h path hpath).outlineNow searchPath
      dsimp only
      rw [outline_bind ho]
      have hfound (ds : List Definition) : Gives (AllReadable files)
          ((fresh files searchPath).usagesOfFirst paths o name ds) := by
        cases ds with
        | nil => exact .pure (allReadable_map_usage ho _ _)
        | cons d _ => exact gives_usagesOf d paths
      cases o.siteAt position.start with
      | none => exact hfound []
      | some site =>
        apply (gives_targets hpy _).bind fun ds _ => hfound ds
        rintro q ⟨⟩
        rw [path_of_outlineNow ho]
        exact readable_of_outlineNow ho

/-! ### All questions -/

/-- A question about what was handed out has an answer, and the answer hands out only what can be asked about. -/
theorem gives_answer (hpy : ReadsPython files) {q : Question} (h : q.IsFit files) :
  Gives (q.Serves files) ((fresh files searchPath).answer q)
  := by
  cases q with
  | resolve name _ => exact gives_resolve hpy name
  | script path _ => exact gives_script h
  | callSites scope => exact gives_callSites h
  | targets site => exact gives_targets hpy h
  | scopeNames scope => exact h.elim
  | usages anchor paths => exact gives_usages hpy h
  | enclosing usage =>
    obtain ⟨p, hpath, hp⟩ := h
    exact gives_enclosing hpath hp

/-- What is done with the outline of a file is done only where the file can be read. -/
theorem readable_of_outline_bind {α : Type} {p : Path} {f : Outline → ExceptT ProviderError Id α} {a : α}
    (h : ((fresh files searchPath).outline p >>= f) = .ok a) :
  ∃ o, outlineNow files searchPath p = .ok o ∧ f o = .ok a
  :=
  exists_of_bind h

/-- Questions that have answers, those about the names of scopes apart, are about what can be asked about. -/
theorem isFit_of_answer {q : Question} {a : q.Answer} (h : (fresh files searchPath).answer q = .ok a) :
  q.IsFit files ∨ ∃ scope, q = .scopeNames scope
  := by
  cases q with
  | resolve name _ => exact .inl trivial
  | script path _ =>
    obtain ⟨o, ho, _⟩ := readable_of_outline_bind h
    exact .inl (readable_of_outlineNow ho)
  | callSites scope =>
    refine .inl fun p hp => ?_
    change (fresh files searchPath).callSites scope = _ at h
    unfold Survey.callSites at h
    rw [hp] at h
    obtain ⟨o, ho, hsites⟩ := readable_of_outline_bind h
    obtain ⟨i, hi, _⟩ := exists_of_bind hsites
    obtain ⟨o', ho', hscopes, _⟩ := outlineNow_searchPath ho []
    refine ⟨o', ho', i, ?_⟩
    rw [hscopes]
    unfold Survey.scopeIn at hi
    split at hi
    · rename_i j hj
      cases hi
      exact hj
    · cases hi
  | targets site =>
    refine .inl fun p hp => ?_
    change (fresh files searchPath).targets site = _ at h
    unfold Survey.targets at h
    rw [hp] at h
    obtain ⟨o, ho, _⟩ := readable_of_outline_bind h
    exact readable_of_outlineNow ho
  | scopeNames scope => exact .inr ⟨scope, rfl⟩
  | usages anchor paths =>
    left
    cases anchor with
    | definition d => exact trivial
    | importProbe name => exact trivial
    | callSite position name =>
      intro p hp
      change (fresh files searchPath).usages paths (.callSite position name) = _ at h
      unfold Survey.usages at h
      dsimp only at h
      rw [hp] at h
      obtain ⟨o, ho, _⟩ := readable_of_outline_bind h
      exact readable_of_outlineNow ho
  | enclosing usage =>
    left
    change (fresh files searchPath).enclosing usage = _ at h
    unfold Survey.enclosing at h
    split at h
    · cases h
    · rename_i p hp
      obtain ⟨o, ho, _⟩ := readable_of_outline_bind h
      exact ⟨p, hp, readable_of_outlineNow ho⟩

/-- Whatever answer is had hands out only what can be asked about. -/
theorem serves_of_answer (hpy : ReadsPython files) {q : Question} {a : q.Answer}
    (h : (fresh files searchPath).answer q = .ok a) :
  q.Serves files a
  := by
  rcases isFit_of_answer h with hfit | ⟨scope, rfl⟩
  · obtain ⟨b, hb, hserves⟩ : Gives (q.Serves files) ((fresh files searchPath).answer q) := gives_answer hpy hfit
    rw [h] at hb
    cases hb
    exact hserves
  · exact trivial

/-! ### Answers from the index -/

theorem isFound_congr {d e : Definition} (h : d.IsFound files) (halike : d.Alike files e) :
  e.IsFound files
  := by
  intro q hq
  have hpath := halike.path
  rw [hq] at hpath
  obtain ⟨p, hp, hsame⟩ := exists_of_optionRel hpath
  obtain ⟨o, ho, scope, hscope⟩ := h p hp
  obtain ⟨o', ho', hoalike⟩ := outlineNow_alike hsame ho
  exact ⟨o', ho', scope, (hoalike.scopeOf halike).trans hscope⟩

/-- Answers alike hand out the same. -/
theorem serves_congr {q : Question} {a b : q.Answer} (h : q.Serves files b) (halike : q.Alike files a b) :
  q.Serves files a
  := by
  cases q with
  | resolve name _ =>
    rintro d rfl
    cases halike with
    | some hd => exact isFound_congr (h _ rfl) hd.symm
  | script path _ => exact isFound_congr h halike.symm
  | callSites scope =>
    intro s hs
    obtain ⟨t, ht, hst⟩ := exists_mem_of_forall₂ halike hs
    exact isReadable_congr (h t ht) (optionRel_symm hst.path)
  | targets site =>
    intro d hd
    obtain ⟨e, he, hde⟩ := exists_mem_of_forall₂ halike hd
    exact isFound_congr (h e he) hde.symm
  | scopeNames scope => exact trivial
  | usages anchor paths =>
    intro u hu
    obtain ⟨v, hv, huv⟩ := exists_mem_of_forall₂ halike hu
    obtain ⟨q, hq, hread⟩ := h v hv
    have hpath := huv.path
    rw [hq] at hpath
    obtain ⟨p, hp, hsame⟩ := exists_of_optionRel hpath
    exact ⟨p, hp, hread.congr hsame.symm⟩
  | enclosing usage => exact isFound_congr h halike.symm

/-- The index answers what can be asked about. -/
theorem Index.Reached.answers (hpy : ReadsPython files) {x : Index} (h : x.Reached files) {q : Question}
    (hq : q.IsFit files) :
  ∃ a, (Index.answer files q x).1 = .ok a
  := by
  obtain ⟨b, hb, _⟩ := gives_answer hpy hq
  obtain ⟨a, ha, _⟩ := h.answer_of_fresh hb
  exact ⟨a, ha⟩

/-- What the index answers hands out only what can be asked about. -/
theorem Index.Reached.serves (hpy : ReadsPython files) {x : Index} (h : x.Reached files) {q : Question}
    {a : q.Answer} (ha : (Index.answer files q x).1 = .ok a) :
  q.Serves files a
  := by
  obtain ⟨b, hb, halike⟩ := h.fresh_of_answer ha
  exact serves_congr (serves_of_answer hpy hb) halike

end Source

end CallGraph
