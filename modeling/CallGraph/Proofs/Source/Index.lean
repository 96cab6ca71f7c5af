import CallGraph.Proofs.Source.Respelling
import CallGraph.Source.Index

/-!
# The index of files

What an index keeps was read when the files were in one of the states that they have been in.  As long as the
times and lengths of files tell what is still as it was then, every answer had from the index is, but for the
spelling of paths, the answer that reading every file anew gives, whatever was asked before.  Files that do
not change are the first case of this.
-/

namespace CallGraph.Source

/-- What is found in an index was kept under an equal path and the time and length asked for. -/
theorem Index.exists_kept_of_find? {x : Index} {p : Path} {stamp : Nat × Nat} {o : Outline}
    (h : x.find? p stamp = some o) :
  ∃ kept ∈ x.kept, (kept.path == p) = true ∧ kept.stamp = stamp ∧ kept.outline = o
  := by
  unfold Index.find? at h
  split at h
  · rename_i kept hkept
    split at h
    · rename_i hstamps
      cases h
      exact ⟨kept, List.mem_of_find?_eq_some hkept, by simpa using List.find?_some hkept, hstamps, rfl⟩
    · cases h
  · cases h

variable [Parser] {files : FileTree} {searchPath : List Path}

/-- What was read of a file before is read now wherever its time and length are what they were then. -/
def StampsHold (before files : FileTree) : Prop :=
  ∀ (searchPath : List Path) (p q : Path) (stamp : Nat × Nat) (o : Outline), (p == q) = true →
    before.stamp p = .ok stamp → outlineNow before searchPath p = .ok o → files.stamp q = .ok stamp →
    Outcome files (Outline.Alike files) (.ok o) (outlineNow files searchPath q)

/-- All outlines kept were read, under their times and lengths, in states of the files that were seen. -/
def Index.StemsFrom (seen : FileTree → Prop) (x : Index) : Prop :=
  ∀ kept ∈ x.kept, ∃ before, seen before ∧ before.stamp kept.path = .ok kept.stamp ∧
    outlineNow before x.searchPath kept.path = .ok kept.outline

/-- All outlines kept are those of the files as they are. -/
def Index.IsCurrent (files : FileTree) (x : Index) : Prop :=
  x.StemsFrom (· = files)

/-- An index whose outlines stem from states that were seen and that has a search path. -/
structure Index.Serves (seen : FileTree → Prop) (searchPath : List Path) (x : Index) : Prop where
  stems : x.StemsFrom seen
  searchPath : x.searchPath = searchPath

/-- A computation on an index that comes to what another one gives, but for spelling, whatever index for the
search path it runs on, if what the index keeps still holds. -/
def Mirrors {α β : Type} (files : FileTree) (searchPath : List Path) (R : α → β → Prop)
    (kept : ExceptT ProviderError (StateM Index) α) (fresh : ExceptT ProviderError Id β) : Prop :=
  ∀ seen : FileTree → Prop, seen files → (∀ before, seen before → StampsHold before files) →
    ∀ x : Index, x.Serves seen searchPath →
      Outcome files R (kept x).1 fresh ∧ Index.Serves seen searchPath (kept x).2

namespace Mirrors

variable {α β γ δ : Type} {R : α → β → Prop} {S : γ → δ → Prop}

theorem pure {a : α} {b : β} (h : R a b) :
  Mirrors files searchPath R (Pure.pure a) (Pure.pure b)
  :=
  fun _ _ _ _ hx => ⟨.ok h, hx⟩

theorem throw (e : ProviderError) :
  Mirrors files searchPath R (MonadExcept.throw e) (MonadExcept.throw e)
  :=
  fun _ _ _ _ hx => ⟨.error (.refl e), hx⟩

/-- One computation after the other. -/
theorem bind {a : ExceptT ProviderError (StateM Index) α} {b : ExceptT ProviderError Id β}
    {f : α → ExceptT ProviderError (StateM Index) γ} {g : β → ExceptT ProviderError Id δ}
    (h : Mirrors files searchPath R a b)
    (hf : ∀ u v, R u v → Mirrors files searchPath S (f u) (g v)) :
  Mirrors files searchPath S (a >>= f) (b >>= g)
  := by
  intro seen hseen hhold x hx
  have hbind : (a >>= f) x = ExceptT.bindCont f (a x).1 (a x).2 := rfl
  have hbind' : (b >>= g) = ExceptT.bindCont g b := rfl
  obtain ⟨hout, hnext⟩ := h seen hseen hhold x hx
  rw [hbind, hbind']
  clear h
  generalize (a x).1 = r at hout
  cases hout with
  | ok hab => exact hf _ _ hab seen hseen hhold _ hnext
  | error he => exact ⟨.error he, hnext⟩

/-- Going on with the outcome of a computation, be it an error. -/
theorem attempt {a : ExceptT ProviderError (StateM Index) α} {b : ExceptT ProviderError Id β}
    {f : Except ProviderError α → ExceptT ProviderError (StateM Index) γ}
    {g : Except ProviderError β → ExceptT ProviderError Id δ} (h : Mirrors files searchPath R a b)
    (hf : ∀ u v, Outcome files R u v → Mirrors files searchPath S (f u) (g v)) :
  Mirrors files searchPath S (ExceptT.lift a.run >>= f) (ExceptT.lift b.run >>= g)
  := by
  intro seen hseen hhold x hx
  obtain ⟨hout, hnext⟩ := h seen hseen hhold x hx
  exact hf _ _ hout seen hseen hhold _ hnext

/-- What mirrors a computation mirrors any other one with an outcome alike. -/
theorem of_outcome {a : ExceptT ProviderError (StateM Index) α} {b : ExceptT ProviderError Id β}
    {b' : ExceptT ProviderError Id γ} {Q : γ → β → Prop} (h : Mirrors files searchPath R a b)
    (hout : Outcome files Q b' b) :
  Mirrors files searchPath (fun x y => ∃ z, R x z ∧ Q y z) a b'
  := by
  intro seen hseen hhold x hx
  obtain ⟨hmirrored, hnext⟩ := h seen hseen hhold x hx
  exact ⟨hmirrored.join hout fun _ _ z _ hxz hyz => ⟨z, hxz, hyz⟩, hnext⟩

end Mirrors

/-! ### Outlines -/

/-- A file can be read only where a file is. -/
theorem lookup_of_outlineNow {p : Path} {o : Outline} (h : outlineNow files searchPath p = .ok o) :
  ∃ place octets modified, files.lookup p = .ok (place, .file octets modified)
  := by
  unfold outlineNow at h
  split at h
  · cases h
  · rename_i octets hread
    obtain ⟨place, modified, hlookup⟩ := FileTree.exists_file_of_readOctets hread
    exact ⟨place, octets, modified, hlookup⟩

theorem outlineNow_of_stamp_error {p : Path} {e : FileError} (h : files.stamp p = .error e) :
  outlineNow files searchPath p = .error (.outside (.files e))
  := by
  have hread : files.readOctets p = .error e := by
    rw [FileTree.stamp] at h
    rw [FileTree.readOctets]
    cases hlookup : files.lookup p with
    | error e' =>
      rw [hlookup] at h
      cases h
      rfl
    | ok found =>
      obtain ⟨place, entry⟩ := found
      rw [hlookup] at h
      cases entry <;> cases h
  rw [outlineNow, hread]

/-- What is read twice without a change is the same. -/
theorem StampsHold.refl (files : FileTree) :
  StampsHold files files
  := by
  intro searchPath p q stamp o hequal hstamp hread hstamp'
  obtain ⟨place, octets, modified, hplace⟩ := lookup_of_outlineNow hread
  obtain ⟨found, hfound⟩ := lookup_of_stamp hstamp'
  have hsame : files.Same p q := ⟨hequal, (FileTree.lookup_of_file (BEq.symm hequal) hfound hplace).symm⟩
  rw [← hread]
  apply outlineNow_congr hsame

/-- What is kept goes on to stem from states that were seen when an outline that is read now is kept with it. -/
theorem Index.StemsFrom.keep {seen : FileTree → Prop} {x : Index} (h : x.StemsFrom seen) (hseen : seen files)
    {p : Path} {stamp : Nat × Nat} {o : Outline} (hstamp : files.stamp p = .ok stamp)
    (hread : outlineNow files x.searchPath p = .ok o) :
  (x.keep ⟨p, stamp, o⟩).StemsFrom seen
  := by
  intro kept hkept
  rcases List.mem_cons.mp hkept with rfl | hkept
  · exact ⟨files, hseen, hstamp, hread⟩
  · exact h kept (List.mem_filter.mp hkept).1

/-- The outline of a file from the index is that of the file as it is. -/
theorem mirrors_load {p q : Path} (h : files.Same p q) :
  Mirrors files searchPath (Outline.Alike files) (Index.load files p) (outlineNow files searchPath q)
  := by
  rintro seen hseen hhold x ⟨hstems, rfl⟩
  have hsame := outlineNow_congr h x.searchPath
  unfold Index.load
  cases hstamp : files.stamp p with
  | error e =>
    rw [outlineNow_of_stamp_error hstamp] at hsame
    exact ⟨hsame, hstems, rfl⟩
  | ok stamp =>
    dsimp only
    cases hfind : x.find? p stamp with
    | some outline =>
      obtain ⟨kept, hkept, hequal, rfl, rfl⟩ := Index.exists_kept_of_find? hfind
      obtain ⟨before, hbefore, hthen, hread⟩ := hstems kept hkept
      have hnow := hhold before hbefore x.searchPath kept.path p kept.stamp kept.outline hequal hthen hread
        hstamp
      refine ⟨?_, hstems, rfl⟩
      generalize outlineNow files x.searchPath p = r at hnow hsame
      cases hnow with
      | ok halike =>
        generalize outlineNow files x.searchPath q = r at hsame
        cases hsame with
        | ok halike' => exact .ok (halike.trans halike')
    | none =>
      dsimp only
      cases hread : outlineNow files x.searchPath p with
      | error e =>
        rw [hread] at hsame
        exact ⟨hsame, hstems, rfl⟩
      | ok outline =>
        rw [hread] at hsame
        exact ⟨hsame, hstems.keep hseen hstamp hread, rfl⟩

/-! ### Locating modules -/

/-- The survey that reads every file anew, and the one that takes outlines from an index. -/
abbrev fresh (files : FileTree) (searchPath : List Path) : Survey Id :=
  .fresh files searchPath

@[inherit_doc fresh]
abbrev indexed (files : FileTree) (searchPath : List Path) : Survey (StateM Index) :=
  Index.survey files { searchPath }

theorem locate_congr {extra extra' : Option Path}
    (h : Option.Rel (fun p q : Path => (p == q) = true) extra extra') (name : String) :
  Option.Rel files.Same ((indexed files searchPath).locate name extra) ((fresh files searchPath).locate name extra')
  := by
  unfold Survey.locate
  split
  · exact .none
  · rw [List.findSome?_append, List.findSome?_append]
    change Option.Rel files.Same ((searchPath.findSome? (Survey.moduleFileIn files name)).or _)
      ((searchPath.findSome? (Survey.moduleFileIn files name)).or _)
    cases searchPath.findSome? (Survey.moduleFileIn files name) with
    | some p => exact .some (.refl p)
    | none =>
      cases h with
      | none => exact .none
      | some h =>
        rw [Option.none_or, Option.none_or, Option.toList_some, Option.toList_some, List.findSome?_singleton,
          List.findSome?_singleton]
        exact moduleFileIn_congr h name

theorem locatedModule_congr {extra extra' : Option Path}
    (h : Option.Rel (fun p q : Path => (p == q) = true) extra extra') (name : String) :
  List.Forall₂ (Definition.Alike files) ((indexed files searchPath).locatedModule name extra)
    ((fresh files searchPath).locatedModule name extra')
  := by
  have hlocate : Option.Rel files.Same ((indexed files searchPath).locate name extra)
      ((fresh files searchPath).locate name extra') := locate_congr h name
  unfold Survey.locatedModule
  generalize (indexed files searchPath).locate name extra = found at hlocate ⊢
  generalize (fresh files searchPath).locate name extra' = found' at hlocate ⊢
  cases hlocate with
  | none => exact .nil
  | some h => exact .cons ⟨.some h, rfl⟩ .nil

/-! ### Answers -/

theorem mirrors_inModule {extra extra' : Option Path}
    (h : Option.Rel (fun p q : Path => (p == q) = true) extra extra') (module name : String) :
  Mirrors files searchPath (List.Forall₂ (Definition.Alike files))
    ((indexed files searchPath).inModule module name extra) ((fresh files searchPath).inModule module name extra')
  := by
  have hfound (ds es : List Definition) (hds : List.Forall₂ (Definition.Alike files) ds es) :
      Mirrors files searchPath (List.Forall₂ (Definition.Alike files))
        (if ds.isEmpty then pure ((indexed files searchPath).locatedModule (module ++ "." ++ name) extra)
          else pure ds)
        (if es.isEmpty then pure ((fresh files searchPath).locatedModule (module ++ "." ++ name) extra')
          else pure es) := by
    cases hds with
    | nil => exact .pure (locatedModule_congr h _)
    | cons hd hds => exact .pure (.cons hd hds)
  have hlocate : Option.Rel files.Same ((indexed files searchPath).locate module extra)
      ((fresh files searchPath).locate module extra') := locate_congr h module
  unfold Survey.inModule
  generalize (indexed files searchPath).locate module extra = found at hlocate ⊢
  generalize (fresh files searchPath).locate module extra' = found' at hlocate ⊢
  cases hlocate with
  | none => exact hfound [] [] .nil
  | some hpath =>
    apply (mirrors_load hpath).bind
    intro o p ho
    exact hfound _ _ (ho.definitionsNamed 0 name)

section Lookups

variable {o p : Outline} (h : o.Alike files p)

include h

theorem mirrors_lookupName (scope : Nat) (name : String) :
  Mirrors files searchPath (List.Forall₂ (Definition.Alike files))
    ((indexed files searchPath).lookupName o scope name) ((fresh files searchPath).lookupName p scope name)
  := by
  have hvisible := h.visible scope name
  have hparent := Path.parent?_congr h.path.equal
  unfold Survey.lookupName
  rw [h.imports]
  generalize o.visible scope name = ds at hvisible ⊢
  generalize p.visible scope name = es at hvisible ⊢
  cases hvisible with
  | cons hd hds => exact .pure (.cons hd hds)
  | nil =>
    dsimp only
    split
    · split
      · exact mirrors_inModule hparent _ _
      · apply Mirrors.pure
        rename_i i _ _ _
        cases i.boundModule with
        | none => exact .nil
        | some bound => exact locatedModule_congr hparent bound
    · exact .pure (List.forall₂_same.mpr fun d _ => .refl d)

omit h in
theorem mirrors_members (name : String) {d e : Definition} (hd : d.Alike files e) :
  Mirrors files searchPath (List.Forall₂ (Definition.Alike files))
    ((indexed files searchPath).members name d) ((fresh files searchPath).members name e)
  := by
  have hpath := hd.path
  unfold Survey.members
  generalize d.path = x at hpath ⊢
  generalize e.path = y at hpath ⊢
  cases hpath with
  | none => exact .pure .nil
  | some hpath =>
    apply (mirrors_load hpath).bind
    intro o p ho
    rw [ho.scopeOf hd]
    cases o.scopeOf d with
    | none => exact .pure .nil
    | some scope => exact .pure (ho.definitionsNamed scope name)

omit h in
theorem mirrors_membersOfClasses (name : String) {ds es : List Definition}
    (hds : List.Forall₂ (Definition.Alike files) ds es) :
  Mirrors files searchPath (List.Forall₂ (Definition.Alike files))
    ((indexed files searchPath).membersOfClasses name ds) ((fresh files searchPath).membersOfClasses name es)
  := by
  induction hds with
  | nil => exact .pure .nil
  | cons hd _ ih =>
    unfold Survey.membersOfClasses
    have hrest (ds es : List Definition) (hds : List.Forall₂ (Definition.Alike files) ds es) :
        Mirrors files searchPath (List.Forall₂ (Definition.Alike files)) _ _ :=
      ih.bind fun rest rest' hrest => .pure (List.rel_append hds hrest)
    rw [hd.kind]
    split
    · exact (mirrors_members name hd).bind hrest
    · exact hrest [] [] .nil

theorem mirrors_lookupAttribute (scope : Nat) (name : String) (receiver : Receiver) :
  Mirrors files searchPath (List.Forall₂ (Definition.Alike files))
    ((indexed files searchPath).lookupAttribute o scope name receiver)
    ((fresh files searchPath).lookupAttribute p scope name receiver)
  := by
  induction receiver generalizing name with
  | own =>
    unfold Survey.lookupAttribute
    rw [h.enclosingClass]
    cases o.enclosingClass scope with
    | none => exact .pure .nil
    | some owner => exact .pure (h.definitionsNamed owner name)
  | object className =>
    unfold Survey.lookupAttribute
    exact (mirrors_lookupName h scope className).bind fun _ _ hds => mirrors_membersOfClasses name hds
  | objectOf owner className ih =>
    unfold Survey.lookupAttribute
    exact (ih className).bind fun _ _ hds => mirrors_membersOfClasses name hds
  | dotted head rest =>
    unfold Survey.lookupAttribute
    rw [h.imports]
    split
    · exact mirrors_inModule (Path.parent?_congr h.path.equal) _ _
    · split
      · exact (mirrors_lookupName h scope head).bind fun _ _ hds => mirrors_membersOfClasses name hds
      · exact .pure .nil

theorem mirrors_lookup (scope : Nat) (qualifier : Option String) (name : String) :
  Mirrors files searchPath (List.Forall₂ (Definition.Alike files))
    ((indexed files searchPath).lookup o scope qualifier name)
    ((fresh files searchPath).lookup p scope qualifier name)
  := by
  cases qualifier with
  | none => exact mirrors_lookupName h scope name
  | some qualifier => exact mirrors_lookupAttribute h scope name _

theorem mirrors_scopeIn {d e : Definition} (hd : d.Alike files e) :
  Mirrors files searchPath Eq (Survey.scopeIn o d) (Survey.scopeIn p e)
  := by
  unfold Survey.scopeIn
  rw [h.scopeOf hd, hd.name]
  cases o.scopeOf d with
  | none => exact .throw _
  | some scope => exact .pure rfl

theorem mirrors_meaning (n : NameRef) :
  Mirrors files searchPath (List.Forall₂ (Definition.Alike files))
    ((indexed files searchPath).meaning o n) ((fresh files searchPath).meaning p n)
  := by
  unfold Survey.meaning
  split
  · rw [h.scopeNamedAt]
    exact .pure (h.definitionNamedAt n.start)
  · exact mirrors_lookup h n.scope n.qualifier n.name

theorem mirrors_namesOf {path path' : Path} (hpath : files.Same path path') (names : List NameRef) :
  Mirrors files searchPath (List.Forall₂ (ScopeName.Alike files))
    ((indexed files searchPath).namesOf path o names) ((fresh files searchPath).namesOf path' p names)
  := by
  induction names with
  | nil => exact .pure .nil
  | cons n names ih =>
    unfold Survey.namesOf
    split
    · exact ih
    · rw [h.module]
      apply (mirrors_meaning h n).bind
      intro ds es hds
      apply ih.bind
      intro rest rest' hrest
      refine .pure (.cons ⟨rfl, .some hpath, rfl, ?_⟩ hrest)
      cases hds with
      | nil => exact ⟨.some hpath, rfl⟩
      | cons hd _ => exact hd

end Lookups

theorem mirrors_callSites {d e : Definition} (hd : d.Alike files e) :
  Mirrors files searchPath (List.Forall₂ (CallSite.Alike files))
    ((indexed files searchPath).callSites d) ((fresh files searchPath).callSites e)
  := by
  have hpath := hd.path
  unfold Survey.callSites
  generalize d.path = x at hpath ⊢
  generalize e.path = y at hpath ⊢
  cases hpath with
  | none => exact .pure .nil
  | some hpath =>
    apply (mirrors_load hpath).bind
    intro o p ho
    apply (mirrors_scopeIn ho hd).bind
    rintro scope _ rfl
    rw [ho.sites]
    apply Mirrors.pure
    rw [List.forall₂_map_left_iff, List.forall₂_map_right_iff]
    exact List.forall₂_same.mpr fun s _ => ⟨.some hpath, rfl⟩

theorem mirrors_targets {s t : CallSite} (h : s.Alike files t) :
  Mirrors files searchPath (List.Forall₂ (Definition.Alike files))
    ((indexed files searchPath).targets s) ((fresh files searchPath).targets t)
  := by
  have hpath := h.path
  rw [h.rest]
  unfold Survey.targets
  dsimp only
  generalize s.path = x at hpath ⊢
  generalize t.path = y at hpath ⊢
  cases hpath with
  | none => exact .pure .nil
  | some hpath =>
    apply (mirrors_load hpath).bind
    intro o p ho
    split
    · rw [ho.scopeNamedAt]
      exact .pure (ho.definitionNamedAt s.start)
    · rw [ho.siteAt, ho.scopeAt]
      exact mirrors_lookup ho _ _ _

theorem mirrors_scopeNames (d : Definition) :
  Mirrors files searchPath (List.Forall₂ (ScopeName.Alike files))
    ((indexed files searchPath).scopeNames d) ((fresh files searchPath).scopeNames d)
  := by
  unfold Survey.scopeNames
  split
  · exact .pure .nil
  · rename_i path _
    apply (mirrors_load (.refl path)).bind
    intro o p ho
    apply (mirrors_scopeIn ho (.refl d)).bind
    rintro scope _ rfl
    rw [ho.names]
    exact mirrors_namesOf ho (.refl path) _

theorem mirrors_enclosing {u v : Usage} (h : u.Alike files v) :
  Mirrors files searchPath (Definition.Alike files)
    ((indexed files searchPath).enclosing u) ((fresh files searchPath).enclosing v)
  := by
  have hpath := h.path
  rw [h.rest]
  unfold Survey.enclosing
  dsimp only
  generalize u.path = x at hpath ⊢
  generalize v.path = y at hpath ⊢
  cases hpath with
  | none => exact .throw _
  | some hpath =>
    apply (mirrors_load hpath).bind
    intro o p ho
    have hdefinition := ho.definition? (Survey.scopeAt o ((o.nameAt u.start).map (·.scope)) u.start)
    rw [ho.nameAt, ho.scopeAt]
    generalize o.definition? _ = d at hdefinition ⊢
    generalize p.definition? _ = e at hdefinition ⊢
    cases hdefinition with
    | none => exact .throw _
    | some hd => exact .pure hd

theorem mirrors_resolve (name : String) :
  Mirrors files searchPath (Option.Rel (Definition.Alike files))
    ((indexed files searchPath).resolve name) ((fresh files searchPath).resolve name)
  := by
  have hlocate (name : String) :
      (indexed files searchPath).locate name none = (fresh files searchPath).locate name none := rfl
  unfold Survey.resolve
  rw [hlocate]
  split
  · rename_i path _
    apply (mirrors_load (.refl path)).bind
    exact fun o p ho => .pure (.some (.refl _))
  · split
    · exact .pure .none
    · rename_i module attr _
      rw [hlocate]
      split
      · exact .pure .none
      · rename_i path _
        apply (mirrors_load (.refl path)).bind
        intro o p ho
        have hds := ho.definitionsNamed 0 (String.ofList attr)
        apply Mirrors.pure
        generalize o.definitionsNamed 0 (String.ofList attr) = ds at hds ⊢
        generalize p.definitionsNamed 0 (String.ofList attr) = es at hds ⊢
        cases hds with
        | nil => exact .none
        | cons hd _ => exact .some hd

theorem mirrors_script (path : Path) :
  Mirrors files searchPath (Definition.Alike files)
    ((indexed files searchPath).script path) ((fresh files searchPath).script path)
  := by
  unfold Survey.script
  apply (mirrors_load (.refl path)).bind
  exact fun o p ho => .pure (.refl _)

/-! ### Usages -/

theorem mirrors_isMember {d e : Definition} (hd : d.Alike files e) :
  Mirrors files searchPath Eq ((indexed files searchPath).isMember d) ((fresh files searchPath).isMember e)
  := by
  have hpath := hd.path
  unfold Survey.isMember
  generalize d.path = x at hpath ⊢
  generalize e.path = y at hpath ⊢
  cases hpath with
  | none => exact .pure rfl
  | some hpath =>
    apply (mirrors_load hpath).attempt
    rintro _ _ (@⟨o, p, ho⟩ | _)
    · dsimp only
      rw [ho.scopeOf hd, ho.scopes]
      exact .pure rfl
    · exact .pure rfl

theorem mirrors_usagesIn {d e : Definition} (hd : d.Alike files e) (isMember : Bool) {paths paths' : List Path}
    (hpaths : List.Forall₂ files.Same paths paths') :
  Mirrors files searchPath (List.Forall₂ (Usage.Alike files))
    ((indexed files searchPath).usagesIn d isMember paths) ((fresh files searchPath).usagesIn e isMember paths')
  := by
  induction hpaths with
  | nil => exact .pure .nil
  | cons hpath _ ih =>
    unfold Survey.usagesIn
    apply (mirrors_load hpath).attempt
    rintro _ _ (@⟨o, p, ho⟩ | _)
    · exact ih.bind fun _ _ hrest => .pure (List.rel_append (ho.usagesOf hd isMember) hrest)
    · exact ih.bind fun _ _ hrest => .pure hrest

theorem mirrors_usagesOf {d e : Definition} (hd : d.Alike files e) (paths : List Path) :
  Mirrors files searchPath (List.Forall₂ (Usage.Alike files))
    ((indexed files searchPath).usagesOf d paths) ((fresh files searchPath).usagesOf e paths)
  := by
  apply (mirrors_isMember hd).bind
  rintro isMember _ rfl
  exact mirrors_usagesIn hd isMember (filesFor_congr hd paths)

/-- The usages of the first of some definitions or, without any, all names that are spelled alike. -/
def Survey.usagesOfFirst {m : Type → Type} [Monad m] (s : Survey m) (paths : List Path) (o : Outline) (name : String) :
    List Definition → ExceptT ProviderError m (List Usage)
  | d :: _ => s.usagesOf d paths
  | [] => pure ((o.names.filter (·.name == name)).map fun n => o.usage name n.start n.stop)

theorem mirrors_usages (anchor : Anchor) (paths : List Path) :
  Mirrors files searchPath (List.Forall₂ (Usage.Alike files))
    ((indexed files searchPath).usages paths anchor) ((fresh files searchPath).usages paths anchor)
  := by
  cases anchor with
  | definition d => exact mirrors_usagesOf (.refl d) paths
  | importProbe name =>
    unfold Survey.usages
    apply (mirrors_resolve name).bind
    intro d e hd
    cases hd with
    | none => exact .pure .nil
    | some hd => exact mirrors_usagesOf hd paths
  | callSite position name =>
    unfold Survey.usages
    dsimp only
    cases position.path with
    | none => exact .pure .nil
    | some path =>
      apply (mirrors_load (.refl path)).bind
      intro o p ho
      have hfound : ∀ ds es : List Definition, List.Forall₂ (Definition.Alike files) ds es →
          Mirrors files searchPath (List.Forall₂ (Usage.Alike files))
            ((indexed files searchPath).usagesOfFirst paths o name ds)
            ((fresh files searchPath).usagesOfFirst paths p name es) := by
        intro ds es hds
        cases hds with
        | cons hd _ => exact mirrors_usagesOf hd paths
        | nil =>
          unfold Survey.usagesOfFirst
          rw [ho.names]
          exact .pure (ho.map_usage _ _ _ _)
      rw [ho.siteAt]
      cases o.siteAt position.start with
      | none => exact hfound [] [] .nil
      | some site => exact (mirrors_targets ⟨.some ho.path, rfl⟩).bind hfound

/-! ### All questions -/

/-- An index that is made ready for a question keeps only what was seen. -/
theorem Index.StemsFrom.serves_prepared {seen : FileTree → Prop} {x : Index} (h : x.StemsFrom seen) (q : Question) :
  Index.Serves seen (x.prepared q).searchPath (x.prepared q)
  := by
  have huse (searchPath : List Path) : (x.use searchPath).StemsFrom seen := by
    unfold Index.use
    split
    · exact h
    · nofun
  refine ⟨?_, rfl⟩
  cases q <;> first | exact h | exact huse _

/-- What the index answers is what reading every file anew answers, if what it keeps still holds, and it goes
on to keep only what was seen. -/
theorem Index.StemsFrom.answer {seen : FileTree → Prop} {x : Index} (h : x.StemsFrom seen) (hseen : seen files)
    (hhold : ∀ before, seen before → StampsHold before files) (q : Question) :
  Outcome files (q.Alike files) (Index.answer files q x).1 ((fresh files (x.prepared q).searchPath).answer q) ∧
    Index.Serves seen (x.prepared q).searchPath (Index.answer files q x).2
  := by
  have hmirrors : Mirrors files (x.prepared q).searchPath (q.Alike files)
      ((indexed files (x.prepared q).searchPath).answer q) ((fresh files (x.prepared q).searchPath).answer q) := by
    cases q with
    | resolve name searchPath => exact mirrors_resolve name
    | script path searchPath => exact mirrors_script path
    | callSites scope => exact mirrors_callSites (.refl scope)
    | targets site => exact mirrors_targets (.refl site)
    | scopeNames scope => exact mirrors_scopeNames scope
    | usages anchor paths => exact mirrors_usages anchor paths
    | enclosing usage => exact mirrors_enclosing (.refl usage)
  exact hmirrors seen hseen hhold _ (h.serves_prepared q)

/-- What the index answers is what reading every file anew answers, and the index stays current. -/
theorem Index.IsCurrent.answer {x : Index} (h : x.IsCurrent files) (q : Question) :
  Outcome files (q.Alike files) (Index.answer files q x).1 ((fresh files (x.prepared q).searchPath).answer q) ∧
    Index.Serves (· = files) (x.prepared q).searchPath (Index.answer files q x).2
  := by
  apply Index.StemsFrom.answer h rfl
  rintro _ rfl
  exact .refl _

/-- The states that an index gets into by answering questions. -/
inductive Index.Reached (files : FileTree) : Index → Prop where
  | empty : Reached files {}
  | answer {x : Index} (h : Reached files x) (q : Question) : Reached files (Index.answer files q x).2

theorem Index.Reached.isCurrent {x : Index} (h : x.Reached files) :
  x.IsCurrent files
  := by
  induction h with
  | empty => nofun
  | answer _ q ih => exact (ih.answer q).2.stems

/-- Every search path can come to be in use. -/
theorem Index.Reached.exists_of_searchPath (files : FileTree) (searchPath : List Path) :
  ∃ x : Index, x.Reached files ∧ x.searchPath = searchPath
  := by
  have hempty : Index.Reached files {} := .empty
  refine ⟨_, hempty.answer (.resolve "" searchPath), ?_⟩
  have hserves := (hempty.isCurrent.answer (.resolve "" searchPath)).2
  rw [hserves.searchPath]
  change (Index.use {} searchPath).searchPath = searchPath
  cases searchPath with
  | nil => rfl
  | cons p ps => rfl

/-- What reading every file anew answers, the index answers. -/
theorem Index.Reached.answer_of_fresh {x : Index} (h : x.Reached files) {q : Question} {b : q.Answer}
    (hb : (fresh files (x.prepared q).searchPath).answer q = .ok b) :
  ∃ a, (Index.answer files q x).1 = .ok a ∧ q.Alike files a b
  := by
  have hout := (h.isCurrent.answer q).1
  rw [hb] at hout
  generalize (Index.answer files q x).1 = r at hout
  cases hout with
  | ok ha => exact ⟨_, rfl, ha⟩

/-- What the index answers, reading every file anew answers. -/
theorem Index.Reached.fresh_of_answer {x : Index} (h : x.Reached files) {q : Question} {a : q.Answer}
    (ha : (Index.answer files q x).1 = .ok a) :
  ∃ b, (fresh files (x.prepared q).searchPath).answer q = .ok b ∧ q.Alike files a b
  := by
  have hout := (h.isCurrent.answer q).1
  rw [ha] at hout
  generalize (fresh files (x.prepared q).searchPath).answer q = r at hout
  cases hout with
  | ok hb => exact ⟨_, rfl, hb⟩

end CallGraph.Source
