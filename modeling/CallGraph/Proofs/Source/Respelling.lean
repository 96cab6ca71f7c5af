import CallGraph.Proofs.Files.Lookup
import CallGraph.Source.Usages
import Mathlib.Data.List.Forall2

/-!
# Outlines and facts up to spelling

One file may be read under several spellings of its path.  All that is then known of it is the same but for
the spelling: outlines, definitions, call sites and usages are alike when their paths are equal and lead to
the same place, and all else is equal.  Looking names up in outlines that are alike gives definitions that
are alike.
-/

namespace CallGraph

/-- Equal paths that lead to the same place. -/
structure FileTree.Same (files : FileTree) (p q : Path) : Prop where
  equal : (p == q) = true
  lookup : files.lookup p = files.lookup q

namespace FileTree.Same

variable {files : FileTree} {p q r : Path}

theorem refl (p : Path) :
  files.Same p p
  :=
  ⟨beq_self_eq_true p, rfl⟩

theorem symm (h : files.Same p q) :
  files.Same q p
  :=
  ⟨BEq.symm h.equal, h.lookup.symm⟩

theorem trans (h : files.Same p q) (h' : files.Same q r) :
  files.Same p r
  :=
  ⟨BEq.trans h.equal h'.equal, h.lookup.trans h'.lookup⟩

theorem ofTwins (h : p.Twins q) :
  files.Same p q
  :=
  ⟨h.equal, FileTree.lookup_congr h⟩

end FileTree.Same

/-- Definitions alike. -/
structure Definition.Alike (files : FileTree) (d e : Definition) : Prop where
  path : Option.Rel files.Same d.path e.path
  rest : e = { d with path := e.path }

/-- Usages alike. -/
structure Usage.Alike (files : FileTree) (u v : Usage) : Prop where
  path : Option.Rel files.Same u.path v.path
  rest : v = { u with path := v.path }

/-- Call sites alike. -/
structure CallSite.Alike (files : FileTree) (s t : CallSite) : Prop where
  path : Option.Rel files.Same s.path t.path
  rest : t = { s with path := t.path }

/-- Names of a scope alike. -/
structure ScopeName.Alike (files : FileTree) (n m : ScopeName) : Prop where
  role : m.role = n.role
  path : Option.Rel files.Same n.callPosition.path m.callPosition.path
  position : m.callPosition = { n.callPosition with path := m.callPosition.path }
  definition : n.definition.Alike files m.definition

/-- Errors alike. -/
inductive ProviderError.Alike (files : FileTree) : ProviderError → ProviderError → Prop where
  | refl (e : ProviderError) : Alike files e e
  | unparsable {p q : Path} (h : files.Same p q) : Alike files (.unparsable p) (.unparsable q)

/-- Answers alike. -/
def Question.Alike (files : FileTree) : (q : Question) → q.Answer → q.Answer → Prop
  | .resolve _ _ => Option.Rel (Definition.Alike files)
  | .script _ _ => Definition.Alike files
  | .callSites _ => List.Forall₂ (CallSite.Alike files)
  | .targets _ => List.Forall₂ (Definition.Alike files)
  | .scopeNames _ => List.Forall₂ (ScopeName.Alike files)
  | .usages _ _ => List.Forall₂ (Usage.Alike files)
  | .enclosing _ => Definition.Alike files

/-- Outcomes that are both alike answers or both alike errors. -/
inductive Outcome {α β : Type} (files : FileTree) (R : α → β → Prop) :
    Except ProviderError α → Except ProviderError β → Prop where
  | ok {a : α} {b : β} (h : R a b) : Outcome files R (.ok a) (.ok b)
  | error {e f : ProviderError} (h : e.Alike files f) : Outcome files R (.error e) (.error f)

theorem ProviderError.Alike.join {files : FileTree} {e e' f : ProviderError} (h : e.Alike files f)
    (h' : e'.Alike files f) :
  e.Alike files e'
  := by
  cases h with
  | refl =>
    cases h' with
    | refl => exact .refl _
    | unparsable h' => exact .unparsable h'.symm
  | unparsable h =>
    cases h' with
    | refl => exact .unparsable h
    | unparsable h' => exact .unparsable (h.trans h'.symm)

/-- Outcomes that are like the same one are alike. -/
theorem Outcome.join {files : FileTree} {α β γ : Type} {P : α → γ → Prop} {Q : β → γ → Prop} {R : α → β → Prop}
    {r : Except ProviderError α} {r' : Except ProviderError β} {r₀ : Except ProviderError γ}
    (h : Outcome files P r r₀) (h' : Outcome files Q r' r₀) (hR : ∀ a b z, r₀ = .ok z → P a z → Q b z → R a b) :
  Outcome files R r r'
  := by
  cases h with
  | ok h =>
    cases h' with
    | ok h' => exact .ok (hR _ _ _ rfl h h')
  | error h =>
    cases h' with
    | error h' => exact .error (h.join h')

/-- Outcomes one after the other. -/
theorem Outcome.trans {files : FileTree} {α β γ : Type} {P : α → β → Prop} {Q : β → γ → Prop} {R : α → γ → Prop}
    {r : Except ProviderError α} {r₀ : Except ProviderError β} {r' : Except ProviderError γ}
    (h : Outcome files P r r₀) (h' : Outcome files Q r₀ r') (hR : ∀ a z b, P a z → Q z b → R a b) :
  Outcome files R r r'
  := by
  cases h with
  | ok h =>
    cases h' with
    | ok h' => exact .ok (hR _ _ _ h h')
  | error h =>
    cases h' with
    | error h' => exact .error (h.join ((ProviderError.Alike.refl _).join h'))

/-- A weaker relation between outcomes. -/
theorem Outcome.imp {files : FileTree} {α β : Type} {P R : α → β → Prop} {r : Except ProviderError α}
    {r' : Except ProviderError β} (h : Outcome files P r r') (hR : ∀ a b, P a b → R a b) :
  Outcome files R r r'
  := by
  cases h with
  | ok h => exact .ok (hR _ _ h)
  | error h => exact .error h

/-- What is related to a path is a path. -/
theorem exists_of_optionRel {α : Type} {R : α → α → Prop} {x : Option α} {b : α} (h : Option.Rel R x (some b)) :
  ∃ a, x = some a ∧ R a b
  := by
  cases h with
  | some h => exact ⟨_, rfl, h⟩

theorem optionRel_refl {α : Type} {R : α → α → Prop} (hR : ∀ a, R a a) (x : Option α) :
  Option.Rel R x x
  := by
  cases x with
  | none => exact .none
  | some a => exact .some (hR a)

/-- Of two lists related entry by entry, each entry of the first is related to one of the second. -/
theorem exists_mem_of_forall₂ {α β : Type} {R : α → β → Prop} {as : List α} {bs : List β}
    (h : List.Forall₂ R as bs) {a : α} (ha : a ∈ as) :
  ∃ b ∈ bs, R a b
  := by
  induction h with
  | nil => cases ha
  | cons hab _ ih =>
    rcases List.mem_cons.mp ha with rfl | ha
    · exact ⟨_, List.mem_cons_self, hab⟩
    · obtain ⟨b, hb, hab⟩ := ih ha
      exact ⟨b, List.mem_cons_of_mem _ hb, hab⟩

theorem optionRel_symm {files : FileTree} {x y : Option Path} (h : Option.Rel files.Same x y) :
  Option.Rel files.Same y x
  := by
  cases h with
  | none => exact .none
  | some h => exact .some h.symm

theorem optionRel_trans {α : Type} {R : α → α → Prop} (hR : ∀ {a b c}, R a b → R b c → R a c) {x y z : Option α}
    (h : Option.Rel R x y) (h' : Option.Rel R y z) :
  Option.Rel R x z
  := by
  cases h with
  | none => exact h'
  | some h =>
    cases h' with
    | some h' => exact .some (hR h h')

theorem Definition.Alike.refl {files : FileTree} (d : Definition) :
  d.Alike files d
  :=
  ⟨optionRel_refl .refl _, rfl⟩

theorem CallSite.Alike.refl {files : FileTree} (s : CallSite) :
  s.Alike files s
  :=
  ⟨optionRel_refl .refl _, rfl⟩

theorem Usage.Alike.refl {files : FileTree} (u : Usage) :
  u.Alike files u
  :=
  ⟨optionRel_refl .refl _, rfl⟩

theorem Usage.Alike.symm {files : FileTree} {u v : Usage} (h : u.Alike files v) :
  v.Alike files u
  := by
  refine ⟨optionRel_symm h.path, ?_⟩
  rw [h.rest]

theorem Usage.Alike.trans {files : FileTree} {u v w : Usage} (h : u.Alike files v) (h' : v.Alike files w) :
  u.Alike files w
  := by
  refine ⟨optionRel_trans .trans h.path h'.path, ?_⟩
  rw [h'.rest, h.rest]

theorem Definition.Alike.symm {files : FileTree} {d e : Definition} (h : d.Alike files e) :
  e.Alike files d
  := by
  refine ⟨optionRel_symm h.path, ?_⟩
  rw [h.rest]

theorem Definition.Alike.trans {files : FileTree} {d e f : Definition} (h : d.Alike files e)
    (h' : e.Alike files f) :
  d.Alike files f
  := by
  refine ⟨optionRel_trans .trans h.path h'.path, ?_⟩
  rw [h'.rest, h.rest]

/-- Lists that are related entry by entry to the same one are related to each other. -/
theorem forall₂_join {α β γ : Type} {P : α → γ → Prop} {Q : β → γ → Prop} {R : α → β → Prop}
    {as : List α} {bs : List β} {zs : List γ} (h : List.Forall₂ P as zs) (h' : List.Forall₂ Q bs zs)
    (hR : ∀ a b z, P a z → Q b z → R a b) :
  List.Forall₂ R as bs
  := by
  induction h generalizing bs with
  | nil =>
    cases h'
    exact .nil
  | cons h _ ih =>
    cases h' with
    | cons h' htail => exact .cons (hR _ _ _ h h') (ih htail)

theorem Definition.Alike.join {files : FileTree} {d e f : Definition} (h : d.Alike files f) (h' : e.Alike files f) :
  d.Alike files e
  :=
  h.trans h'.symm

theorem CallSite.Alike.join {files : FileTree} {s t r : CallSite} (h : s.Alike files r) (h' : t.Alike files r) :
  s.Alike files t
  := by
  have hsymm : t = { r with path := t.path } := by rw [h'.rest]
  refine ⟨optionRel_trans .trans h.path (optionRel_symm h'.path), ?_⟩
  rw [hsymm, h.rest]

theorem ScopeName.Alike.join {files : FileTree} {n m r : ScopeName} (h : n.Alike files r) (h' : m.Alike files r) :
  n.Alike files m
  := by
  have hsymm : m.callPosition = { r.callPosition with path := m.callPosition.path } := by rw [h'.position]
  refine ⟨h'.role.symm.trans h.role, optionRel_trans .trans h.path (optionRel_symm h'.path), ?_,
    h.definition.join h'.definition⟩
  rw [hsymm, h.position]

theorem optionRel_beq {files : FileTree} {x y : Option Path} (h : Option.Rel files.Same x y) :
  (x == y) = true
  := by
  cases h with
  | none => rfl
  | some h => exact h.equal

/-- Definitions alike are equal as definitions, with paths compared as paths. -/
theorem Definition.Alike.beq {files : FileTree} {d e : Definition} (h : d.Alike files e) :
  (d == e) = true
  := by
  rw [h.rest, Definition.beq_iff]
  exact ⟨optionRel_beq h.path, rfl, rfl, rfl, rfl, rfl⟩

theorem Definition.Alike.kind {files : FileTree} {d e : Definition} (h : d.Alike files e) :
  e.kind = d.kind
  := by
  rw [h.rest]

theorem Definition.Alike.module {files : FileTree} {d e : Definition} (h : d.Alike files e) :
  e.module = d.module
  := by
  rw [h.rest]

theorem Definition.Alike.name {files : FileTree} {d e : Definition} (h : d.Alike files e) :
  e.name = d.name
  := by
  rw [h.rest]

namespace Source

/-- Outlines alike. -/
structure Outline.Alike (files : FileTree) (o p : Outline) : Prop where
  path : files.Same o.path p.path
  rest : p = { o with path := p.path }

variable {files : FileTree}

/-! ### Reading files -/

theorem moduleNameOf_congr {p q : Path} (h : files.Same p q) (searchPath : List Path) :
  moduleNameOf files searchPath p = moduleNameOf files searchPath q
  := by
  simp only [moduleNameOf, moduleName?, FileTree.canonical, stemOf, h.lookup, Path.fileStem?_congr h.equal]

theorem readOctets_congr {p q : Path} (h : files.Same p q) :
  files.readOctets p = files.readOctets q
  := by
  rw [FileTree.readOctets, FileTree.readOctets, h.lookup]

section Parsing

variable [Parser]

/-- Under another spelling the outline of a source text has another path and nothing else. -/
theorem Outline.ofSource_congr {p q : Path} (h : (p == q) = true) (module source : String) :
  ofSource q module source = { ofSource p module source with path := q }
  := by
  simp only [ofSource, ofTree, Path.fileStem?_congr h]

/-- Under two spellings that lead to the same place the same is read. -/
theorem outlineNow_congr {p q : Path} (h : files.Same p q) (searchPath : List Path) :
  Outcome files (Outline.Alike files) (outlineNow files searchPath p) (outlineNow files searchPath q)
  := by
  unfold outlineNow
  rw [readOctets_congr h, moduleNameOf_congr h]
  split
  · exact .error (.refl _)
  · split
    · exact .error (.refl _)
    · exact .ok ⟨h, Outline.ofSource_congr h.equal _ _⟩

end Parsing

/-! ### Looking names up -/

theorem Outline.chainFrom_congr {o p : Outline} (h : p.scopes = o.scopes) (fuel : Nat) (scope : Option Nat) :
  p.chainFrom fuel scope = o.chainFrom fuel scope
  := by
  induction fuel generalizing scope with
  | zero => rfl
  | succ fuel ih =>
    cases scope with
    | none => rfl
    | some i => rw [chainFrom, chainFrom, ih, h]

namespace Outline.Alike

variable {o p : Outline} (h : o.Alike files p)

include h

theorem scopes :
  p.scopes = o.scopes
  := by
  rw [h.rest]

theorem sites :
  p.sites = o.sites
  := by
  rw [h.rest]

theorem names :
  p.names = o.names
  := by
  rw [h.rest]

theorem imports :
  p.imports = o.imports
  := by
  rw [h.rest]

theorem module :
  p.module = o.module
  := by
  rw [h.rest]

theorem siteAt (place : Location) :
  p.siteAt place = o.siteAt place
  := by
  rw [Outline.siteAt, Outline.siteAt, h.sites]

theorem nameAt (place : Location) :
  p.nameAt place = o.nameAt place
  := by
  rw [Outline.nameAt, Outline.nameAt, h.names]

theorem scopeNamedAt (place : Location) :
  p.scopeNamedAt place = o.scopeNamedAt place
  := by
  rw [Outline.scopeNamedAt, Outline.scopeNamedAt, h.scopes]

theorem chain (scope : Nat) :
  p.chain scope = o.chain scope
  := by
  rw [Outline.chain, Outline.chain, chainFrom_congr h.scopes, h.scopes]

theorem scopeContaining (place : Location) :
  p.scopeContaining place = o.scopeContaining place
  := by
  simp only [Outline.scopeContaining, Outline.depth, h.chain, h.scopes]
  rfl

theorem enclosingClass (scope : Nat) :
  p.enclosingClass scope = o.enclosingClass scope
  := by
  rw [Outline.enclosingClass, Outline.enclosingClass, h.chain, h.scopes]

theorem scopeAt (recorded : Option Nat) (place : Location) :
  Survey.scopeAt p recorded place = Survey.scopeAt o recorded place
  := by
  rw [Survey.scopeAt, Survey.scopeAt, h.scopeContaining]

theorem scopeOf {d e : Definition} (hd : d.Alike files e) :
  p.scopeOf e = o.scopeOf d
  := by
  rw [Outline.scopeOf, Outline.scopeOf, h.scopeNamedAt, hd.rest]
  rfl

theorem definition? (scope : Nat) :
  Option.Rel (Definition.Alike files) (o.definition? scope) (p.definition? scope)
  := by
  rw [h.rest]
  unfold Outline.definition?
  cases o.scopes[scope]? with
  | none => exact .none
  | some s => exact .some ⟨.some h.path, rfl⟩

theorem definitionNamedAt (place : Location) :
  List.Forall₂ (Definition.Alike files) ((o.scopeNamedAt place).bind o.definition?).toList
    ((o.scopeNamedAt place).bind p.definition?).toList
  := by
  cases o.scopeNamedAt place with
  | none => exact .nil
  | some scope =>
    have hdefinition := h.definition? scope
    rw [Option.bind_some, Option.bind_some]
    generalize o.definition? scope = d at hdefinition ⊢
    generalize p.definition? scope = e at hdefinition ⊢
    cases hdefinition with
    | none => exact .nil
    | some hd => exact .cons hd .nil

theorem definitionsNamed (scope : Nat) (name : String) :
  List.Forall₂ (Definition.Alike files) (o.definitionsNamed scope name) (p.definitionsNamed scope name)
  := by
  have hchildren : p.childrenNamed scope name = o.childrenNamed scope name := by rw [h.rest]; rfl
  unfold Outline.definitionsNamed
  rw [hchildren]
  apply List.rel_filterMap (R := Eq) _ (List.forall₂_refl _)
  rintro i _ rfl
  exact h.definition? i

theorem visible (scope : Nat) (name : String) :
  List.Forall₂ (Definition.Alike files) (o.visible scope name) (p.visible scope name)
  := by
  have hseen (seen : List Nat) : List.Forall₂ (Definition.Alike files)
      (((seen.map fun i => o.definitionsNamed i name).find? (!·.isEmpty)).getD [])
      (((seen.map fun i => p.definitionsNamed i name).find? (!·.isEmpty)).getD []) := by
    induction seen with
    | nil => exact .nil
    | cons i seen ih =>
      have hnamed := h.definitionsNamed i name
      rw [List.map_cons, List.map_cons, List.find?_cons, List.find?_cons]
      cases hd : o.definitionsNamed i name with
      | nil =>
        rw [hd, List.forall₂_nil_left_iff] at hnamed
        rw [hnamed]
        exact ih
      | cons d ds =>
        rw [hd] at hnamed
        obtain ⟨e, es, he, hes, heq⟩ := List.forall₂_cons_left_iff.mp hnamed
        rw [heq]
        exact .cons he hes
  unfold Outline.visible
  simp only [h.chain, h.scopes]
  exact hseen _

theorem usage (name : String) (start stop : Location) :
  (o.usage name start stop).Alike files (p.usage name start stop)
  := by
  rw [h.rest]
  exact ⟨.some h.path, rfl⟩

theorem map_usage {α : Type} (name : String) (xs : List α) (start stop : α → Location) :
  List.Forall₂ (Usage.Alike files) (xs.map fun x => o.usage name (start x) (stop x))
    (xs.map fun x => p.usage name (start x) (stop x))
  := by
  rw [List.forall₂_map_left_iff, List.forall₂_map_right_iff]
  exact List.forall₂_same.mpr fun x _ => h.usage _ _ _

theorem usagesOf {d e : Definition} (hd : d.Alike files e) (isMember : Bool) :
  List.Forall₂ (Usage.Alike files) (o.usagesOf d isMember) (p.usagesOf e isMember)
  := by
  have hsame : (e.path == some p.path) = (d.path == some o.path) := by
    have hleft := optionRel_beq hd.path
    have hright : (some o.path == some p.path) = true := optionRel_beq (.some h.path)
    exact ((BEq.congr_left hleft).trans (BEq.congr_right hright)).symm
  have hmodule : e.isModule = d.isModule ∧ e.module = d.module ∧ e.name = d.name := by
    rw [hd.rest]
    exact ⟨rfl, rfl, rfl⟩
  have himports : p.importsModule d.module = o.importsModule d.module := by
    rw [Outline.importsModule, Outline.importsModule, h.imports]
  have hrefers (sameFile : Bool) : p.refersTo e isMember sameFile = o.refersTo d isMember sameFile := by
    rw [h.rest, hd.rest]
    rfl
  unfold Outline.usagesOf
  simp only [hmodule, hsame, himports, hrefers, h.imports, h.names]
  split
  · exact h.map_usage _ _ _ _
  · split
    · exact h.map_usage _ _ _ _
    · exact .nil

end Outline.Alike

theorem Outline.Alike.trans {o o' o'' : Outline} (h : o.Alike files o') (h' : o'.Alike files o'') :
  o.Alike files o''
  := by
  refine ⟨h.path.trans h'.path, ?_⟩
  rw [h'.rest, h.rest]

/-! ### Places of files -/

/-- What leads nowhere has no stamp. -/
theorem lookup_of_stamp {p : Path} {stamp : Nat × Nat} (h : files.stamp p = .ok stamp) :
  ∃ found, files.lookup p = .ok found
  := by
  rw [FileTree.stamp] at h
  cases hlookup : files.lookup p with
  | error e =>
    rw [hlookup] at h
    cases h
  | ok found => exact ⟨found, rfl⟩

/-- Equal directories hold the file of a module at the same place. -/
theorem moduleFileIn_congr {directory directory' : Path} (h : (directory == directory') = true) (name : String) :
  Option.Rel files.Same (Survey.moduleFileIn files name directory) (Survey.moduleFileIn files name directory')
  := by
  have hbase := Path.twins_join h ((dottedParts name).foldl Path.child ⟨""⟩)
  have hfile : Path.Twins (Path.withExtension _ "py") (Path.withExtension _ "py") :=
    hbase.withExtension (by decide) (by decide)
  have hmarker := Path.twins_join hbase.equal ⟨packageMarker⟩
  unfold Survey.moduleFileIn
  dsimp only
  rw [FileTree.isFile_congr hfile, Path.child, Path.child, FileTree.isFile_congr hmarker]
  split
  · exact .some (.ofTwins hfile)
  · split
    · exact .some (.ofTwins hmarker)
    · exact .none

theorem before_congr {p p' q q' : Path} (hp : (p == p') = true) (hq : (q == q') = true) :
  p.before q = p'.before q'
  := by
  rw [Path.before, Path.before, Path.beq_iff.mp hp, Path.beq_iff.mp hq]

/-- Sorting keeps pairs of equal paths together. -/
theorem sort_congr {paths paths' : List Path} (h : List.Forall₂ files.Same paths paths') :
  List.Forall₂ files.Same (Path.sort paths) (Path.sort paths')
  := by
  let order (z w : Path × Path) : Bool := !w.1.before z.1
  let pairs := paths.zip paths'
  have hpairs : ∀ z ∈ pairs, files.Same z.1 z.2 := fun z hz => List.forall₂_zip h hz
  have hlength := h.length_eq
  have hleft : Path.sort paths = (pairs.mergeSort order).map Prod.fst := by
    have hmap : (pairs.mergeSort order).map Prod.fst = Path.sort (pairs.map Prod.fst) :=
      List.map_mergeSort fun _ _ _ _ => rfl
    rw [hmap, List.map_fst_zip hlength.le]
  have hright : Path.sort paths' = (pairs.mergeSort order).map Prod.snd := by
    have hmap : (pairs.mergeSort order).map Prod.snd = Path.sort (pairs.map Prod.snd) := by
      apply List.map_mergeSort
      intro z hz w hw
      exact congrArg not (before_congr (hpairs w hw).equal (hpairs z hz).equal)
    rw [hmap, List.map_snd_zip hlength.ge]
  rw [hleft, hright, List.forall₂_map_left_iff, List.forall₂_map_right_iff, List.forall₂_same]
  intro z hz
  exact hpairs z ((List.mergeSort_perm _ _).mem_iff.mp hz)

theorem withoutRuns_congr {paths paths' : List Path} (h : List.Forall₂ files.Same paths paths') :
  List.Forall₂ files.Same (Survey.withoutRuns paths) (Survey.withoutRuns paths')
  := by
  induction paths using Survey.withoutRuns.induct generalizing paths' with
  | case1 =>
    cases h
    simp [Survey.withoutRuns]
  | case2 p =>
    obtain ⟨p', _, hp, ⟨⟩, rfl⟩ := List.forall₂_cons_left_iff.mp h
    simpa [Survey.withoutRuns] using hp
  | case3 p q rest hequal ih =>
    obtain ⟨p', _, hp, hrest, rfl⟩ := List.forall₂_cons_left_iff.mp h
    obtain ⟨q', rest', hq, hrest', rfl⟩ := List.forall₂_cons_left_iff.mp hrest
    have hequal' : (p' == q') = true := BEq.trans (BEq.trans hp.symm.equal hequal) hq.equal
    rw [Survey.withoutRuns, if_pos hequal, Survey.withoutRuns, if_pos hequal']
    exact ih (.cons hp hrest')
  | case4 p q rest hne ih =>
    obtain ⟨p', _, hp, hrest, rfl⟩ := List.forall₂_cons_left_iff.mp h
    obtain ⟨q', rest', hq, hrest', rfl⟩ := List.forall₂_cons_left_iff.mp hrest
    have hne' : ¬ (p' == q') = true := fun hequal =>
      hne (BEq.trans (BEq.trans hp.equal hequal) hq.symm.equal)
    rw [Survey.withoutRuns, if_neg hne, Survey.withoutRuns, if_neg hne']
    exact .cons hp (ih (.cons hq hrest'))

theorem filesFor_congr {d e : Definition} (hd : d.Alike files e) (paths : List Path) :
  List.Forall₂ files.Same (Survey.filesFor d paths) (Survey.filesFor e paths)
  := by
  apply withoutRuns_congr
  apply sort_congr
  apply List.rel_append (List.forall₂_same.mpr fun p _ => .refl p)
  have hpath := hd.path
  generalize d.path = x at hpath ⊢
  generalize e.path = y at hpath ⊢
  cases hpath with
  | none => exact .nil
  | some hpath => exact .cons hpath .nil

end Source

end CallGraph
