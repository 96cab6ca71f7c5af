import CallGraph.Proofs.Source.Index
import CallGraph.Proofs.Source.Outline

/-!
# Usages of a definition and callees of a file

A search for the usages of a definition goes through the files it is given and the definition's own, each
once, and passes over those that cannot be read.  So it always has a result, and the usages in one file that
can be read are among those found.

For a file that can be read, its source text is given here beside its outline.  For each call or decorator whose
callee is a name or an attribute the outline has a name and a site at one place.
-/

namespace CallGraph.Source

/-! ### Usages -/

namespace Survey

/-- Every path has an equal one left when repeated entries are taken out. -/
theorem exists_mem_withoutRuns {p : Path} {paths : List Path} (h : p ∈ paths) :
  ∃ q ∈ withoutRuns paths, (q == p) = true
  := by
  fun_induction withoutRuns paths generalizing p with
  | case1 => cases h
  | case2 q =>
    rw [List.mem_singleton] at h
    exact ⟨q, List.mem_singleton_self q, by rw [h]; exact beq_self_eq_true q⟩
  | case3 first second rest hequal ih =>
    rcases List.mem_cons.mp h with rfl | h
    · exact ih List.mem_cons_self
    · rcases List.mem_cons.mp h with rfl | h
      · obtain ⟨q, hq, hqp⟩ := ih List.mem_cons_self
        exact ⟨q, hq, BEq.trans hqp hequal⟩
      · exact ih (List.mem_cons_of_mem _ h)
  | case4 first second rest hne ih =>
    rcases List.mem_cons.mp h with rfl | h
    · exact ⟨p, List.mem_cons_self, beq_self_eq_true p⟩
    · obtain ⟨q, hq, hqp⟩ := ih h
      exact ⟨q, List.mem_cons_of_mem _ hq, hqp⟩

theorem withoutRuns_subset (paths : List Path) :
  withoutRuns paths ⊆ paths
  := by
  fun_induction withoutRuns paths with
  | case1 => exact List.Subset.refl _
  | case2 q => exact List.Subset.refl _
  | case3 first second rest hequal ih =>
    intro q hq
    rcases List.mem_cons.mp (ih hq) with rfl | hq
    · exact List.mem_cons_self
    · exact List.mem_cons_of_mem _ (List.mem_cons_of_mem _ hq)
  | case4 first second rest hne ih => exact List.cons_subset_cons _ ih

/-- The files searched are those given and the definition's own, up to spelling. -/
theorem mem_filesFor {d : Definition} {paths : List Path} {p : Path} (h : p ∈ filesFor d paths) :
  p ∈ paths ∨ d.path = some p
  := by
  have hmem := (List.mergeSort_perm _ _).mem_iff.mp (withoutRuns_subset _ h)
  rwa [List.mem_append, Option.mem_toList] at hmem

theorem exists_mem_filesFor {d : Definition} {paths : List Path} {p : Path} (h : p ∈ paths) :
  ∃ q ∈ filesFor d paths, (q == p) = true
  := by
  apply exists_mem_withoutRuns
  exact (List.mergeSort_perm _ _).mem_iff.mpr (List.mem_append_left _ h)

end Survey

/-- Whether a definition stands directly in a class of an outline. -/
def Outline.nestsInClass (o : Outline) (d : Definition) : Bool :=
  ((o.scopeOf d).bind fun i => o.scopes[i]?.bind (·.parent)).any fun i =>
    (o.scopes[i]?.map (·.kind)) == some .classScope

/-- If two steps have a result, so has the first. -/
theorem exists_of_bind {α β : Type} {a : ExceptT ProviderError Id α} {f : α → ExceptT ProviderError Id β} {b : β}
    (h : (a >>= f) = .ok b) :
  ∃ u, a = .ok u ∧ f u = .ok b
  := by
  change ExceptT.bindCont f a = _ at h
  match a, h with
  | .ok u, h => exact ⟨u, rfl, h⟩
  | .error e, h => cases h

variable [Parser] {files : FileTree} {searchPath : List Path}

/-- Whether a definition stands directly in a class, as its file is now. -/
def memberNow (files : FileTree) (searchPath : List Path) (d : Definition) : Bool :=
  match d.path.map (outlineNow files searchPath) with
  | some (.ok o) => o.nestsInClass d
  | _ => false

/-- The usages of a definition in a file as it is now. -/
def usagesNow (files : FileTree) (searchPath : List Path) (d : Definition) (isMember : Bool) (p : Path) :
    List Usage :=
  match outlineNow files searchPath p with
  | .ok o => o.usagesOf d isMember
  | .error _ => []

/-- Where a file can be read, what is done with its outline is done. -/
theorem outline_bind {α : Type} {p : Path} {o : Outline} (h : outlineNow files searchPath p = .ok o)
    (f : Outline → ExceptT ProviderError Id α) :
  ((fresh files searchPath).outline p >>= f) = f o
  := by
  change ExceptT.bindCont f (outlineNow files searchPath p) = f o
  rw [h]
  rfl

/-- Where a file cannot be read, nothing more is done. -/
theorem outline_bind_error {α : Type} {p : Path} {e : ProviderError}
    (h : outlineNow files searchPath p = .error e) (f : Outline → ExceptT ProviderError Id α) :
  ((fresh files searchPath).outline p >>= f) = .error e
  := by
  change ExceptT.bindCont f (outlineNow files searchPath p) = _
  rw [h]
  rfl

theorem lift_run_bind {α : Type} {p : Path} (f : Except ProviderError Outline → ExceptT ProviderError Id α) :
  (ExceptT.lift ((fresh files searchPath).outline p).run >>= f) = f (outlineNow files searchPath p)
  :=
  rfl

theorem isMember_fresh (d : Definition) :
  (fresh files searchPath).isMember d = .ok (memberNow files searchPath d)
  := by
  unfold Survey.isMember memberNow
  cases d.path with
  | none => rfl
  | some p =>
    dsimp only [Option.map_some]
    cases houtline : outlineNow files searchPath p with
    | error e =>
      rw [lift_run_bind, houtline]
      rfl
    | ok o =>
      rw [lift_run_bind, houtline]
      rfl

theorem usagesIn_fresh (d : Definition) (isMember : Bool) (paths : List Path) :
  (fresh files searchPath).usagesIn d isMember paths =
    .ok (paths.flatMap (usagesNow files searchPath d isMember))
  := by
  induction paths with
  | nil => rfl
  | cons p paths ih =>
    unfold Survey.usagesIn
    rw [lift_run_bind, ih, List.flatMap_cons, usagesNow]
    cases houtline : outlineNow files searchPath p with
    | error e => 
      rfl
    | ok o => 
      rfl

/-- The usages of a definition are those in the files searched. -/
theorem usages_fresh (d : Definition) (paths : List Path) :
  (fresh files searchPath).answer (.usages (.definition d) paths) =
    .ok ((Survey.filesFor d paths).flatMap (usagesNow files searchPath d (memberNow files searchPath d)))
  := by
  change (fresh files searchPath).usagesOf d paths = _
  unfold Survey.usagesOf
  rw [isMember_fresh]
  exact usagesIn_fresh d _ _

/-! ### Callees -/

/-- The text in a file as it is now. -/
def textNow (files : FileTree) (path : Path) : Option String :=
  match files.readOctets path with
  | .ok octets => (Utf8.decode octets).toOption
  | .error _ => none

/-- A file that can be read holds a source text, and its outline is made from the tree of this text. -/
theorem exists_text_of_outlineNow {path : Path} {o : Outline} (h : outlineNow files searchPath path = .ok o) :
  ∃ source, textNow files path = some source ∧
    o = Outline.ofSource path (moduleNameOf files searchPath path) source
  := by
  unfold outlineNow at h
  unfold textNow
  split at h
  · cases h
  · rename_i octets hread
    rw [hread]
    split at h
    · cases h
    · rename_i text hdecode
      cases h
      exact ⟨text, by simp only [hdecode, Except.toOption], rfl⟩

/-- A file that holds a source text can be read. -/
theorem outlineNow_of_text {path : Path} {source : String} (h : textNow files path = some source) :
  outlineNow files searchPath path = .ok (Outline.ofSource path (moduleNameOf files searchPath path) source)
  := by
  unfold textNow at h
  unfold outlineNow
  cases hread : files.readOctets path with
  | error e =>
    rw [hread] at h
    cases h
  | ok octets =>
    rw [hread] at h
    dsimp only at h ⊢
    cases hdecode : Utf8.decode octets with
    | error fault =>
      rw [hdecode] at h
      cases h
    | ok text =>
      rw [hdecode] at h
      cases h
      rfl

/-- The outline of a file that can be read is regular. -/
theorem isRegular_of_outlineNow {path : Path} {o : Outline} (h : outlineNow files searchPath path = .ok o) :
  o.IsRegular
  := by
  obtain ⟨source, _, rfl⟩ := exists_text_of_outlineNow h
  exact Outline.isRegular_ofTree _ _ _ _

/-- If the parser is sound, names and definitions are at different places. -/
theorem isDistinct_of_outlineNow [SoundParser] {path : Path} {o : Outline}
    (h : outlineNow files searchPath path = .ok o) :
  o.IsDistinct
  := by
  obtain ⟨source, _, rfl⟩ := exists_text_of_outlineNow h
  exact Outline.isDistinct_ofTree _ _ _ (SoundParser.sound _)

theorem path_of_outlineNow {path : Path} {o : Outline} (h : outlineNow files searchPath path = .ok o) :
  o.path = path
  := by
  obtain ⟨source, _, rfl⟩ := exists_text_of_outlineNow h
  rfl

/-- The name and extent of a tree that is a plain name. -/
def Tree.plain? : Tree → Option Piece
  | .identifier name extent => some (name, extent)
  | _ => none

omit [Parser] in
theorem Tree.identifier_mem_of_plain {trees : List Tree} {name : String} {extent : Extent}
    (h : (name, extent) ∈ trees.filterMap plain?) :
  .identifier name extent ∈ trees
  := by
  obtain ⟨t, ht, hplain⟩ := List.mem_filterMap.mp h
  cases t with
  | identifier =>
    cases hplain
    exact ht
  | token => cases hplain
  | node => cases hplain

/-- An occurrence of a name that is the callee of a call or decorator: the name of a callee at its anchor, and
its site. -/
structure Outline.IsCallee (o : Outline) (n : NameRef) : Prop where
  name : n ∈ o.names
  site : n.site ∈ o.sites
  notImport : n.context ≠ .importName
  notDefinition : n.context ≠ .definition

/-- The callee of a call or decorator, if it is a name or an attribute, is among the names and sites. -/
theorem exists_isCallee [SoundParser] {path : Path} {source : String} (hsource : textNow files path = some source)
    {o : Outline} (ho : outlineNow files searchPath path = .ok o) {callee : Tree}
    (hcallee : callee ∈ (Parser.tree source.toList).callees) (hname : callee.IsName) :
  ∃ n, o.IsCallee n ∧ n.site = Findings.siteOf source.toList n.scope callee
  := by
  obtain ⟨source', htext, rfl⟩ := exists_text_of_outlineNow ho
  cases hsource.symm.trans htext
  let file : FileFacts := ⟨source.toList, moduleNameOf files searchPath path, path.fileStem? == some "__init__"⟩
  have hvisits := (Parser.tree source.toList).visits_visit file {} {} (SoundParser.sound _).named
  obtain ⟨n, hn, hsite, hmem, himport, hdefinition⟩ := hvisits.callees callee hcallee hname
  exact ⟨n, ⟨Outline.mem_names_ofTree.mpr hn, Outline.mem_sites_ofTree.mpr hmem, himport, hdefinition⟩, hsite⟩

end CallGraph.Source
