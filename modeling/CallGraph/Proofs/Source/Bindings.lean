import CallGraph.Proofs.Source.Backward
import CallGraph.Source.Grammar

/-!
# What a name is bound to

A search for usages goes by names: in a definition's own file it finds every occurrence of its name, in other
files every occurrence of a name that it is imported under.  Whether such an occurrence leads back to the
definition depends on the nearest binding of the name: the nearest scope looked into that defines it, else the
first import that binds it.
-/

namespace CallGraph.Source

variable {files : FileTree} {searchPath : List Path}

namespace Outline

variable {o : Outline}

/-- The nearest of the scopes looked into that directly contains a definition of a name. -/
def nearest? (o : Outline) (scope : Nat) (name : String) : Option Nat :=
  (o.lookedInto scope).find? fun i => !(o.childrenNamed i name).isEmpty

theorem isEmpty_definitionsNamed (owner : Nat) (name : String) :
  (o.definitionsNamed owner name).isEmpty = (o.childrenNamed owner name).isEmpty
  := by
  rw [definitionsNamed, Bool.eq_iff_iff, List.isEmpty_iff, List.isEmpty_iff, List.filterMap_eq_nil_iff]
  constructor
  · intro h
    rw [List.eq_nil_iff_forall_not_mem]
    intro i hi
    have hlength : i < o.scopes.length := List.mem_range.mp (List.mem_filter.mp hi).1
    have hnone := h i hi
    rw [definition?, List.getElem?_eq_getElem hlength] at hnone
    cases hnone
  · intro h i hi
    rw [h] at hi
    cases hi

/-- What is seen from a scope are the definitions in the nearest scope that has any. -/
theorem visible_eq (scope : Nat) (name : String) :
  o.visible scope name = match o.nearest? scope name with
    | some owner => o.definitionsNamed owner name
    | none => []
  := by
  have hlooked (owners : List Nat) : ((owners.map fun i => o.definitionsNamed i name).find? (!·.isEmpty)).getD [] =
      match owners.find? fun i => !(o.childrenNamed i name).isEmpty with
      | some owner => o.definitionsNamed owner name
      | none => [] := by
    rw [List.find?_map]
    have hempty : (fun ds : List Definition => !ds.isEmpty) ∘ (fun i => o.definitionsNamed i name) =
        fun i => !(o.childrenNamed i name).isEmpty := by
      funext i
      rw [Function.comp_apply, isEmpty_definitionsNamed]
    rw [hempty]
    cases owners.find? fun i => !(o.childrenNamed i name).isEmpty <;> rfl
  exact hlooked _

theorem nearest?_eq_none_iff {scope : Nat} {name : String} :
  o.nearest? scope name = none ↔ o.visible scope name = []
  := by
  rw [visible_eq]
  cases hnearest : o.nearest? scope name with
  | none => simp
  | some owner =>
    have hne := List.find?_some hnearest
    rw [← isEmpty_definitionsNamed] at hne
    simpa using hne

namespace IsRegular

variable (ho : o.IsRegular)

include ho

/-- The scopes around every scope end with the file. -/
theorem getLast?_chain {scope : Nat} (hscope : scope < o.scopes.length) :
  (o.chain scope).getLast? = some 0
  := by
  have hchain (fuel i : Nat) (hfuel : i < fuel) (hi : i < o.scopes.length) :
      (o.chainFrom fuel (some i)).getLast? = some 0 := by
    induction i using Nat.strong_induction_on generalizing fuel with
    | _ i ih =>
      obtain ⟨fuel, rfl⟩ := Nat.exists_eq_succ_of_ne_zero (Nat.ne_of_gt (Nat.zero_lt_of_lt hfuel))
      rw [chainFrom]
      cases i with
      | zero =>
        obtain ⟨file, hfile, _, hroot⟩ := ho.root
        rw [hfile, Option.bind_some, hroot]
        cases fuel <;> rfl
      | succ i =>
        obtain ⟨_, parent, hparent, hle⟩ := ho.inner i _ (List.getElem?_eq_getElem hi)
        rw [List.getElem?_eq_getElem hi, Option.bind_some, hparent]
        have hlast := ih parent (by omega) fuel (by omega) (by omega)
        rw [List.getLast?_cons, hlast]
        rfl
  exact hchain _ scope hscope hscope

/-- The file is among the scopes around every scope. -/
theorem zero_mem_chain {scope : Nat} (hscope : scope < o.scopes.length) :
  0 ∈ o.chain scope
  :=
  List.mem_of_getLast? (ho.getLast?_chain hscope)

/-- The file is looked into from every scope. -/
theorem zero_mem_lookedInto {scope : Nat} (hscope : scope < o.scopes.length) :
  0 ∈ o.lookedInto scope
  := by
  obtain ⟨file, hfile, hkind, _⟩ := ho.root
  exact List.mem_filter.mpr ⟨ho.zero_mem_chain hscope, by simp [hfile, hkind]⟩

end IsRegular

section IsDistinct

variable (ho : o.IsRegular) (hdistinct : o.IsDistinct)

include ho hdistinct

/-- A function or class is what is found by the place of its name. -/
theorem scopeNamedAt_eq {i : Nat} {s : Scope} {parent : Nat} (hs : o.scopes[i]? = some s)
    (hparent : s.parent = some parent) :
  o.scopeNamedAt s.start = some i
  := by
  cases i with
  | zero =>
    obtain ⟨file, hfile, _, hroot⟩ := ho.root
    rw [hs] at hfile
    cases hfile
    rw [hparent] at hroot
    cases hroot
  | succ i => exact hdistinct.scopeNamedAt hs

/-- Two functions or classes whose names start at one place are the same. -/
theorem eq_of_start_eq {i j : Nat} {s t : Scope} (hs : o.scopes[i]? = some s) (ht : o.scopes[j]? = some t)
    {a b : Nat} (hsp : s.parent = some a) (htp : t.parent = some b) (hstart : s.start = t.start) :
  i = j ∧ s = t
  := by
  have hi := scopeNamedAt_eq ho hdistinct hs hsp
  have hj := scopeNamedAt_eq ho hdistinct ht htp
  rw [hstart, hj] at hi
  cases hi
  rw [hs] at ht
  cases ht
  exact ⟨rfl, rfl⟩

end IsDistinct

/-- A function or class of a file is one of the definitions of its name in the scope it stands in. -/
theorem mem_definitionsNamed {i parent : Nat} {f : Scope} (hf : o.scopes[i]? = some f)
    (hparent : f.parent = some parent) :
  o.definitionOf f ∈ o.definitionsNamed parent f.name
  := by
  rw [definitionsNamed, List.mem_filterMap]
  refine ⟨i, List.mem_filter.mpr ⟨?_, ?_⟩, by rw [definition?, hf]; rfl⟩
  · exact List.mem_range.mpr (List.getElem?_eq_some_iff.mp hf).1
  · rw [hf]
    simp [hparent]

/-- A function or class is no module. -/
theorem isModule_definitionOf (ho : o.IsRegular) {i parent : Nat} {f : Scope} (hf : o.scopes[i]? = some f)
    (hparent : f.parent = some parent) :
  (o.definitionOf f).isModule = false
  := by
  have hkind : f.kind ≠ .module := by
    cases i with
    | zero =>
      obtain ⟨file, hfile, _, hroot⟩ := ho.root
      rw [hf] at hfile
      cases hfile
      rw [hparent] at hroot
      cases hroot
    | succ i => exact (ho.inner i f hf).1
  change (f.kind.text == Kind.moduleKind) = false
  cases h : f.kind with
  | module => exact absurd h hkind
  | function => rfl
  | classScope => rfl

/-- What a definition is found again by: the file is its first scope, a function or class is found by its name. -/
theorem scopeOf_definitionOf (ho : o.IsRegular) {i : Nat} {s : Scope} (hs : o.scopes[i]? = some s) :
  o.scopeOf (o.definitionOf s) = match i with
    | 0 => some 0
    | _ + 1 => o.scopeNamedAt s.start
  := by
  cases i with
  | zero =>
    obtain ⟨file, hfile, hkind, _⟩ := ho.root
    rw [hs] at hfile
    cases hfile
    have hmodule : (o.definitionOf s).isModule = true := by
      rw [Definition.isModule, definitionOf, hkind]
      rfl
    rw [scopeOf, hmodule]
    rfl
  | succ i =>
    obtain ⟨_, parent, hparent, _⟩ := ho.inner i s hs
    have hscript : ((o.definitionOf s).kind == Kind.scriptKind) = false := by
      change (s.kind.text == Kind.scriptKind) = false
      cases s.kind <;> rfl
    rw [scopeOf, isModule_definitionOf ho hs hparent, hscript]
    rfl

/-- A definition that is made from a scope is that of some scope. -/
theorem exists_scopeOf (ho : o.IsRegular) {i : Nat} {d : Definition} (hd : o.definition? i = some d) :
  ∃ scope, o.scopeOf d = some scope
  := by
  obtain ⟨s, hs, rfl⟩ := Option.map_eq_some_iff.mp hd
  rw [scopeOf_definitionOf ho hs]
  cases i with
  | zero => exact ⟨0, rfl⟩
  | succ i =>
    have hinner : s ∈ o.scopes.drop 1 := by
      apply List.mem_of_getElem? (i := i)
      rw [List.getElem?_drop, Nat.add_comm]
      exact hs
    have hfound : ((o.scopes.drop 1).findIdx? (·.start = s.start)).isSome = true := by
      rw [List.findIdx?_isSome, List.any_eq_true]
      exact ⟨s, hinner, decide_eq_true rfl⟩
    obtain ⟨j, hj⟩ := Option.isSome_iff_exists.mp hfound
    exact ⟨j + 1, Option.map_eq_some_iff.mpr ⟨j, hj, rfl⟩⟩

/-- A scope is found again by the definition that opens it. -/
theorem scopeOf_definition? (ho : o.IsRegular) (hdistinct : o.IsDistinct) {i : Nat} {d : Definition}
    (hd : o.definition? i = some d) :
  o.scopeOf d = some i
  := by
  obtain ⟨s, hs, rfl⟩ := Option.map_eq_some_iff.mp hd
  rw [scopeOf_definitionOf ho hs]
  cases i with
  | zero => rfl
  | succ i =>
    obtain ⟨_, parent, hparent, _⟩ := ho.inner i s hs
    exact scopeNamedAt_eq ho hdistinct hs hparent

end Outline

section Parsed

variable [Parser]

/-- What a name stands for as seen from a scope has a definition equal to a given one. -/
def StandsFor (files : FileTree) (searchPath : List Path) (o : Outline) (scope : Nat) (name : String)
    (d : Definition) : Prop :=
  ∃ ds, (fresh files searchPath).lookupName o scope name = .ok ds ∧ ∃ e ∈ ds, (e == d) = true

theorem standsFor_congr {o : Outline} {scope : Nat} {name : String} {d d' : Definition} (h : (d == d') = true) :
  StandsFor files searchPath o scope name d ↔ StandsFor files searchPath o scope name d'
  := by
  simp only [StandsFor, BEq.congr_right h]

section StandsFor

variable {o od : Outline} {scope parent i : Nat} {name : String} {f : Scope}

/-- A name that is defined in a scope looked into stands for the definitions in the nearest such scope. -/
theorem standsFor_of_nearest {owner : Nat} (hnearest : o.nearest? scope name = some owner) (d : Definition) :
  StandsFor files searchPath o scope name d ↔ ∃ e ∈ o.definitionsNamed owner name, (e == d) = true
  := by
  have hvisible : o.visible scope name = o.definitionsNamed owner name := by
    rw [Outline.visible_eq, hnearest]
  have hlookup : (fresh files searchPath).lookupName o scope name = .ok (o.definitionsNamed owner name) := by
    have hne := List.find?_some hnearest
    rw [← Outline.isEmpty_definitionsNamed, ← hvisible] at hne
    unfold Survey.lookupName
    cases h : o.visible scope name with
    | nil =>
      rw [h] at hne
      cases hne
    | cons d ds =>
      rw [← hvisible, h]
      rfl
  unfold StandsFor
  rw [hlookup]
  constructor
  · rintro ⟨ds, hds, e⟩
    cases hds
    exact e
  · intro e
    exact ⟨_, rfl, e⟩

/-- A function or class stands directly in a class if the scope it stands in is one. -/
theorem memberNow_definitionOf [SoundParser] (hod : outlineNow files searchPath od.path = .ok od)
    (hf : od.scopes[i]? = some f) (hparent : f.parent = some parent) :
  memberNow files searchPath (od.definitionOf f) =
    ((od.scopes[parent]?.map (·.kind)) == some .classScope)
  := by
  have hscopeOf : od.scopeOf (od.definitionOf f) = some i := by
    apply Outline.scopeOf_definition? (isRegular_of_outlineNow hod) (isDistinct_of_outlineNow hod)
    rw [Outline.definition?, hf, Option.map_some]
  have hnow : memberNow files searchPath (od.definitionOf f) = od.nestsInClass (od.definitionOf f) := by
    have hpath : (od.definitionOf f).path.map (outlineNow files searchPath) = some (.ok od) := congrArg some hod
    rw [memberNow, hpath]
  rw [hnow, Outline.nestsInClass, hscopeOf, Option.bind_some, hf, Option.bind_some, hparent, Option.any_some]

/-- A module that is located at a file is read there. -/
theorem outlineNow_of_locate {module : String} {extra : Option Path} {p own : Path}
    (h : (fresh files searchPath).locate module extra = some p) (hequal : (p == own) = true)
    (hod : outlineNow files searchPath own = .ok od) :
  ∃ op, outlineNow files searchPath p = .ok op ∧ od.Alike files op
  := by
  have hfile := isFile_of_locate h
  obtain ⟨place, octets, modified, hplace⟩ := lookup_of_outlineNow hod
  unfold FileTree.isFile at hfile
  split at hfile
  · rename_i place' octets' modified' hplace'
    have hsame : files.Same p own := ⟨hequal, FileTree.lookup_of_file hequal hplace' hplace⟩
    exact outlineNow_alike hsame.symm hod
  · cases hfile

/-- A function or class that a module provides stands at the top level of the module's file, under the name that is
asked for. -/
theorem declares_of_inModule [SoundParser] {module attr : String} {extra : Option Path} {ds : List Definition}
    (hds : (fresh files searchPath).inModule module attr extra = .ok ds) {e : Definition} (he : e ∈ ds) {own : Path}
    (hod : outlineNow files searchPath own = .ok od) (hf : od.scopes[i]? = some f) (hparent : f.parent = some parent)
    (hequal : (e == od.definitionOf f) = true) :
  parent = 0 ∧ attr = f.name ∧ ∃ p, (fresh files searchPath).locate module extra = some p ∧ (p == own) = true
  := by
  have hregular := isRegular_of_outlineNow hod
  obtain ⟨hequal_path, -, hequal_kind, -, hequal_start, -⟩ := Definition.beq_iff.mp hequal
  rcases inModule_fresh hds with ⟨p, op, hlocate, hop, rfl⟩ | rfl
  · obtain ⟨k, t, ht, htparent, htname, rfl⟩ := Outline.exists_scope_of_definitionsNamed he
    have hown : (p == own) = true := by
      rw [← path_of_outlineNow hop, ← path_of_outlineNow hod]
      exact hequal_path
    obtain ⟨op', hop', halike⟩ := outlineNow_of_locate hlocate hown hod
    rw [hop] at hop'
    cases hop'
    rw [halike.scopes] at ht
    obtain ⟨_, rfl⟩ :=
      Outline.eq_of_start_eq hregular (isDistinct_of_outlineNow hod) ht hf htparent hparent hequal_start
    rw [hparent] at htparent
    cases htparent
    exact ⟨rfl, htname.symm, p, hlocate, hown⟩
  · -- what a module provides as a submodule is a module
    have hmodule := isModule_of_mem_locatedModule he
    rw [Definition.isModule, hequal_kind, ← Definition.isModule,
      Outline.isModule_definitionOf hregular hf hparent] at hmodule
    cases hmodule

/-- A function or class at the top level of a module's file is provided by the module under its name. -/
theorem exists_inModule {module : String} {extra : Option Path} {p own : Path}
    (hlocate : (fresh files searchPath).locate module extra = some p) (hown : (p == own) = true)
    (hod : outlineNow files searchPath own = .ok od) (hf : od.scopes[i]? = some f) (hparent : f.parent = some 0) :
  ∃ ds, (fresh files searchPath).inModule module f.name extra = .ok ds ∧ ∃ e ∈ ds, (e == od.definitionOf f) = true
  := by
  obtain ⟨op, hop, halike⟩ := outlineNow_of_locate hlocate hown hod
  have hmem : op.definitionOf f ∈ op.definitionsNamed 0 f.name :=
    Outline.mem_definitionsNamed (halike.scopes ▸ hf) hparent
  refine ⟨op.definitionsNamed 0 f.name, ?_, _, hmem, ?_⟩
  · unfold Survey.inModule
    rw [hlocate]
    dsimp only
    rw [outline_bind hop]
    change (if (op.definitionsNamed 0 f.name).isEmpty then pure _ else pure _) = _
    rw [if_neg (by simpa using List.ne_nil_of_mem hmem)]
    rfl
  · rw [Definition.beq_iff]
    have hmodules := halike.module
    exact ⟨BEq.symm halike.path.equal, rfl, rfl, hmodules, rfl, rfl⟩

/-- A name that no scope looked into defines stands for a function or class if the first import that binds it
takes it from a module in its file, where it stands at the top level. -/
theorem standsFor_of_imported [SoundParser] (hnearest : o.nearest? scope name = none) {own : Path}
    (hod : outlineNow files searchPath own = .ok od) (hf : od.scopes[i]? = some f)
    (hparent : f.parent = some parent) :
  StandsFor files searchPath o scope name (od.definitionOf f) ↔
    parent = 0 ∧ ∃ j, o.imports.find? (·.localName == name) = some j ∧ j.attr = some f.name ∧
      ∃ p, (fresh files searchPath).locate j.module o.path.parent? = some p ∧ (p == own) = true
  := by
  have hmodule := Outline.isModule_definitionOf (isRegular_of_outlineNow hod) hf hparent
  unfold StandsFor Survey.lookupName
  rw [Outline.nearest?_eq_none_iff.mp hnearest]
  dsimp only
  constructor
  · rintro ⟨ds, hds, e, he, hequal⟩
    obtain ⟨hequal_path, -, hequal_kind, -⟩ := Definition.beq_iff.mp hequal
    cases hfind : o.imports.find? (·.localName == name) with
    | none =>
      -- a builtin is in no file
      rw [hfind] at hds
      obtain rfl := Except.ok.inj hds
      split at he
      · rw [List.mem_singleton] at he
        subst he
        cases hequal_path
      · cases he
    | some j =>
      rw [hfind] at hds
      dsimp only at hds
      cases hattr : j.attr with
      | none =>
        -- without an attribute the import binds a module
        rw [hattr] at hds
        cases hds
        cases hbound : j.boundModule with
        | none =>
          rw [hbound] at he
          cases he
        | some bound =>
          rw [hbound] at he
          have hboundModule := isModule_of_mem_locatedModule he
          rw [Definition.isModule, hequal_kind, ← Definition.isModule, hmodule] at hboundModule
          cases hboundModule
      | some attr =>
        rw [hattr] at hds
        obtain ⟨hzero, rfl, p, hlocate, hown⟩ := declares_of_inModule hds he hod hf hparent hequal
        exact ⟨hzero, j, rfl, hattr, p, hlocate, hown⟩
  · rintro ⟨rfl, j, hfind, hattr, p, hlocate, hown⟩
    rw [hfind]
    dsimp only
    rw [hattr]
    exact exists_inModule hlocate hown hod hf hparent

/-- In its own file, the name of a function or class stands for it where the nearest scope that defines the
name is the one that it stands in. -/
theorem standsFor_own [SoundParser] (hod : outlineNow files searchPath od.path = .ok od)
    (hscope : scope < od.scopes.length) (hf : od.scopes[i]? = some f) (hparent : f.parent = some parent) :
  StandsFor files searchPath od scope f.name (od.definitionOf f) ↔ od.nearest? scope f.name = some parent
  := by
  have hregular := isRegular_of_outlineNow hod
  have hmem := Outline.mem_definitionsNamed hf hparent
  cases hnearest : od.nearest? scope f.name with
  | none =>
    rw [standsFor_of_imported hnearest hod hf hparent]
    constructor
    · rintro ⟨rfl, _⟩
      have hempty := List.find?_eq_none.mp hnearest 0 (hregular.zero_mem_lookedInto hscope)
      rw [← Outline.isEmpty_definitionsNamed] at hempty
      simp [List.ne_nil_of_mem hmem] at hempty
    · rintro ⟨⟩
  | some owner =>
    rw [standsFor_of_nearest hnearest, Option.some.injEq]
    constructor
    · rintro ⟨e, he, hequal⟩
      obtain ⟨k, t, ht, htparent, _, rfl⟩ := Outline.exists_scope_of_definitionsNamed he
      obtain ⟨_, _, _, _, hstart, _⟩ := Definition.beq_iff.mp hequal
      obtain ⟨_, rfl⟩ := Outline.eq_of_start_eq hregular (isDistinct_of_outlineNow hod) ht hf htparent hparent hstart
      rw [hparent] at htparent
      exact (Option.some.inj htparent).symm
    · rintro rfl
      exact ⟨_, hmem, beq_self_eq_true _⟩

end StandsFor

/-! ### From usages back to the definition -/

/-- A callee's targets have a given definition among them if its name stands for the definition. -/
theorem Index.Reached.target_iff {x : Index} (hx : x.Reached files) {path : Path} {o : Outline}
    (ho : outlineNow files x.searchPath path = .ok o) {n : NameRef} (hqualifier : n.qualifier = none)
    (d : Definition) :
  (∃ ds, (Index.answer files (.targets (Survey.callSiteOf path n.site)) x).1 = .ok ds ∧
    ∃ e ∈ ds, (e == d) = true) ↔ StandsFor files x.searchPath o (o.scopeAsked n.start) n.name d
  := by
  have hfresh : (fresh files x.searchPath).answer (.targets (Survey.callSiteOf path n.site)) =
      (fresh files x.searchPath).lookupName o (o.scopeAsked n.start) n.name := by
    rw [targets_fresh ho rfl]
    change (fresh files x.searchPath).lookup o _ n.qualifier n.name = _
    rw [hqualifier]
    rfl
  constructor
  · rintro ⟨ds, hds, e, he, hequal⟩
    obtain ⟨es, hes, halike⟩ := hx.fresh_of_answer hds
    obtain ⟨e', he', halike_e⟩ := exists_mem_of_forall₂ halike he
    exact ⟨es, hfresh.symm.trans hes, e', he', BEq.trans halike_e.symm.beq hequal⟩
  · rintro ⟨es, hes, e, he, hequal⟩
    obtain ⟨ds, hds, halike⟩ :=
      hx.answer_of_fresh (q := .targets (Survey.callSiteOf path n.site)) (hfresh.trans hes)
    obtain ⟨e', he', halike_e⟩ : ∃ e' ∈ ds, e'.Alike files e := exists_mem_of_forall₂ halike.flip he
    exact ⟨ds, hds, e', he', BEq.trans halike_e.beq hequal⟩

/-- A usage that is found at the place of a callee refers to the definition. -/
theorem Index.Reached.refersTo_of_usage [SoundParser] {y : Index} (hy : y.Reached files) {path : Path} {o : Outline}
    (ho : outlineNow files y.searchPath path = .ok o) {n : NameRef} (h : o.IsCallee n) {d : Definition}
    (hmodule : d.isModule = false) {paths : List Path} {us : List Usage}
    (hus : (Index.answer files (.usages (.definition d) paths) y).1 = .ok us) {u : Usage} (hu : u ∈ us)
    (hposition : (u.position == ⟨some path, n.start, n.stop⟩) = true) :
  o.refersTo d (memberNow files y.searchPath d) (d.path == some path) n = true
  := by
  obtain ⟨vs, hvs, halike⟩ := hy.fresh_of_answer (q := .usages (.definition d) paths) hus
  obtain ⟨v, hv, huv⟩ := exists_mem_of_forall₂ halike hu
  change (fresh files y.searchPath).answer _ = _ at hvs
  rw [usages_fresh] at hvs
  cases hvs
  obtain ⟨q, hq, hv⟩ := List.mem_flatMap.mp hv
  unfold usagesNow at hv
  split at hv
  · rename_i o' ho'
    have hvpath : v.path = some q := path_of_outlineNow ho' ▸ Outline.path_of_mem_usagesOf hv
    obtain ⟨hequal, hstart, _⟩ := CallPosition.beq_iff.mp hposition
    -- The file searched is that of the callee, perhaps under another spelling.
    have hpaths : (some q == some path) = true := by
      rw [← hvpath]
      exact BEq.trans (BEq.symm (optionRel_beq huv.path)) hequal
    obtain ⟨o'', ho'', halike_o⟩ := outlineNow_alike (same_of_readable (BEq.symm hpaths) ho ho') ho
    rw [ho'] at ho''
    cases ho''
    have hsame : (d.path == some o'.path) = (d.path == some path) := by
      rw [path_of_outlineNow ho']
      exact BEq.congr_right hpaths
    unfold Outline.usagesOf at hv
    rw [hmodule, if_neg Bool.false_ne_true] at hv
    dsimp only at hv
    split at hv
    · obtain ⟨n', hn', rfl⟩ := List.mem_map.mp hv
      obtain ⟨hmem, hrefers⟩ := List.mem_filter.mp hn'
      have hplace : n'.start = n.start := by
        rw [← show u.start = n.start from hstart, huv.symm.rest]
        rfl
      have hfound := (isDistinct_of_outlineNow ho).nameAt (halike_o.names ▸ hmem)
      rw [hplace, (isDistinct_of_outlineNow ho).nameAt h.name] at hfound
      cases hfound
      rw [hsame, halike_o.rest] at hrefers
      exact hrefers
    · cases hv
  · cases hv

/-- The scope in which a call is looked up is one of the file's. -/
theorem scopeAsked_lt {path : Path} {o : Outline} (ho : outlineNow files searchPath path = .ok o) {n : NameRef}
    (h : o.IsCallee n) :
  o.scopeAsked n.start < o.scopes.length
  := by
  unfold Outline.scopeAsked
  cases hsite : o.siteAt n.start with
  | none =>
    have hnone := List.find?_eq_none.mp hsite n.site h.site
    exact absurd rfl (of_decide_eq_false (eq_false_of_ne_true hnone))
  | some s => exact (isRegular_of_outlineNow ho).site s (List.mem_of_find?_eq_some hsite)

/-- Usages lead back where the name is not bound otherwise.  Let a usage of a function or class that does not
stand directly in a class be found at a call or decorator with a plain name.  In the file of the function or
class, the name is its own, and the call leads back to it if the nearest scope looked into from the call that
defines the name is the one that it stands in.  In another file, the name is one that it is imported under,
and the call leads back to it if no scope looked into defines the name and the first import that binds it
takes it from a module in its file, where it stands at the top level. -/
theorem Index.Reached.target_iff_of_usage [SoundParser] {x y : Index} (hx : x.Reached files) (hy : y.Reached files)
    (hxy : y.searchPath = x.searchPath) {path own : Path} {source : String} (hsource : textNow files path = some source)
    {o od : Outline} (ho : outlineNow files x.searchPath path = .ok o)
    (hod : outlineNow files x.searchPath own = .ok od) {name : String} {extent : Extent}
    (hcallee : Tree.identifier name extent ∈ (Parser.tree source.toList).callees)
    {f : Scope} {i parent : Nat} (hf : od.scopes[i]? = some f) (hparent : f.parent = some parent)
    (hmember : memberNow files x.searchPath (od.definitionOf f) = false) {paths : List Path} {us : List Usage}
    (hus : (Index.answer files (.usages (.definition (od.definitionOf f)) paths) y).1 = .ok us) {u : Usage}
    (hu : u ∈ us)
    (hposition : (u.position == ⟨some path, extent.start.location, extent.stop.location⟩) = true) :
  ∃ s ∈ o.sites, s = ⟨s.scope, name, none, .child, extent.start.location, extent.stop.location⟩ ∧
    let leadsBack := ∃ ds, (Index.answer files (.targets (Survey.callSiteOf path s)) x).1 = .ok ds ∧
      ∃ e ∈ ds, (e == od.definitionOf f) = true
    let nearest := o.nearest? (o.scopeAsked s.start) name
    ((own == path) = true → name = f.name ∧ (leadsBack ↔ nearest = some parent)) ∧
    ((own == path) = false → o.ImportsAs name (od.definitionOf f) ∧
      (leadsBack ↔ nearest = none ∧ parent = 0 ∧
        ∃ j, o.imports.find? (·.localName == name) = some j ∧ j.attr = some f.name ∧
          ∃ p, (fresh files x.searchPath).locate j.module path.parent? = some p ∧ (p == own) = true))
  := by
  obtain ⟨n, hn, hsite⟩ := exists_isCallee hsource ho hcallee trivial
  change n.site = ⟨n.scope, name, none, .child, extent.start.location, extent.stop.location⟩ at hsite
  obtain ⟨_, rfl, hqualifier, _, hstart, hstop⟩ := Site.mk.inj hsite
  have hscope := scopeAsked_lt ho hn
  have hmodule := Outline.isModule_definitionOf (isRegular_of_outlineNow hod) hf hparent
  have hpath : (od.definitionOf f).path = some own := congrArg some (path_of_outlineNow hod)
  have hopath := path_of_outlineNow ho
  rw [← hstart, ← hstop] at hposition
  have hrefers := hy.refersTo_of_usage (hxy ▸ ho) hn hmodule hus hu hposition
  rw [hxy, hmember, hpath] at hrefers
  change o.refersTo (od.definitionOf f) false (own == path) n = true at hrefers
  simp only [Outline.refersTo, hn.notImport, if_false, hqualifier] at hrefers
  refine ⟨n.site, hn.site, hsite, ?_⟩
  dsimp only
  rw [hx.target_iff ho hqualifier, show n.site.start = n.start from rfl]
  constructor
  · intro hequal
    have hname : n.name = f.name := by simpa [hequal, Outline.definitionOf] using hrefers
    obtain ⟨od', hod', halike⟩ := outlineNow_alike (same_of_readable hequal hod ho) hod
    rw [ho] at hod'
    cases hod'
    have hf' : o.scopes[i]? = some f := halike.scopes ▸ hf
    refine ⟨hname, ?_⟩
    rw [hname]
    have hequal_definition : (od.definitionOf f == o.definitionOf f) = true := by
      rw [Definition.beq_iff]
      exact ⟨halike.path.equal, rfl, rfl, halike.module.symm, rfl, rfl⟩
    rw [← standsFor_own (hopath.symm ▸ ho) hscope hf' hparent]
    exact standsFor_congr hequal_definition
  · intro hother
    have halias : n.name ∈ o.aliasesOf (od.definitionOf f) := by simpa [hother] using hrefers
    obtain ⟨j, hj, hlocal⟩ := List.mem_map.mp halias
    obtain ⟨hj, himport⟩ := List.mem_filter.mp hj
    rw [Bool.and_eq_true, beq_iff_eq, beq_iff_eq] at himport
    refine ⟨⟨j, hj, hlocal, himport.1, himport.2⟩, ?_⟩
    cases hnearest : o.nearest? (o.scopeAsked n.start) n.name with
    | none =>
      rw [standsFor_of_imported hnearest hod hf hparent, hopath, eq_self, true_and]
    | some owner =>
      rw [standsFor_of_nearest hnearest]
      constructor
      · rintro ⟨e, he, hequal⟩
        obtain ⟨_, t, _, _, _, rfl⟩ := Outline.exists_scope_of_definitionsNamed he
        have hpaths : (some o.path == some own) = true := hpath ▸ (Definition.beq_iff.mp hequal).1
        rw [BEq.comm, hopath] at hpaths
        have hpaths : (own == path) = true := hpaths
        rw [hother] at hpaths
        cases hpaths
      · rintro ⟨hnone, _⟩
        cases hnone

end Parsed

/-! ### A nearer function of the same name -/

section Nested

open scoped Grammar

/-- A text in which a function is called where it hides another one of the same name. -/
def nestedText : String :=
  "def f():\n    pass\ndef g():\n    def f():\n        pass\n    f()\n"

/-- A file with this text. -/
def nested : FileTree :=
  { entries := [(["tmp"], .directory), (["tmp", "w"], .directory),
      (["tmp", "w", "m.py"], .file nestedText.toUTF8 0)] }

def nestedOutline : Outline :=
  .ofSource ⟨"/tmp/w/m.py"⟩ "m" nestedText

theorem textNow_nested :
  textNow nested ⟨"/tmp/w/m.py"⟩ = some nestedText
  := by
  decide +kernel

theorem outlineNow_nested :
  outlineNow nested [] ⟨"/tmp/w/m.py"⟩ = .ok nestedOutline
  := by
  have hmodule : moduleNameOf nested [] ⟨"/tmp/w/m.py"⟩ = "m" := by decide
  rw [outlineNow_of_text textNow_nested, hmodule]
  rfl

/-- Where the call stands. -/
def nestedCall : Extent :=
  ⟨⟨6, 4, 57⟩, ⟨6, 5, 58⟩⟩

/-- What the text holds: its scopes, with their parents, names and kinds, its call, the scopes of the names and sites
there, and what the name that is called is bound to. -/
theorem recorded_nested :
  nestedOutline.scopes.map (fun s => (s.parent, s.name, s.kind)) =
      [(none, "m", .module), (some 0, "f", .function), (some 0, "g", .function), (some 2, "f", .function)] ∧
    (Parser.tree nestedText.toList).callees.filterMap Tree.plain? = [("f", nestedCall)] ∧
    ((Parser.tree nestedText.toList).visit ⟨nestedText.toList, "m", false⟩ {} {}).sites.all
      (fun s => s.start = .known 6 4 → s.scope = 2) = true ∧
    nestedOutline.nearest? 2 "f" = some 2
  := by
  decide +kernel

theorem callee_nested :
  Tree.identifier "f" nestedCall ∈ (Parser.tree nestedText.toList).callees
  := by
  apply Tree.identifier_mem_of_plain
  rw [recorded_nested.2.1]
  exact List.mem_singleton_self _

/-- The functions of the name, neither of which is a member of a class. -/
theorem exists_scope_nested {i parent : Nat} (h : i = 1 ∧ parent = 0 ∨ i = 3 ∧ parent = 2) :
  ∃ f, nestedOutline.scopes[i]? = some f ∧ f.parent = some parent ∧ f.name = "f" ∧
    memberNow nested [] (nestedOutline.definitionOf f) = false
  := by
  have hscope (j : Nat) := congrArg (·[j]?) recorded_nested.1
  simp only [List.getElem?_map] at hscope
  obtain ⟨f, hf, hfields⟩ : ∃ f, nestedOutline.scopes[i]? = some f ∧
      (f.parent, f.name, f.kind) = (some parent, "f", .function) := by
    apply Option.map_eq_some_iff.mp
    rw [hscope]
    obtain ⟨rfl, rfl⟩ | ⟨rfl, rfl⟩ := h <;> rfl
  have hparent : f.parent = some parent := congrArg Prod.fst hfields
  refine ⟨f, hf, hparent, congrArg (·.2.1) hfields, ?_⟩
  have hkind := congrArg (Option.map fun fields => fields.2.2) (hscope parent)
  rw [Option.map_map] at hkind
  change nestedOutline.scopes[parent]?.map (·.kind) = _ at hkind
  rw [memberNow_definitionOf outlineNow_nested hf hparent, hkind]
  obtain ⟨rfl, rfl⟩ | ⟨rfl, rfl⟩ := h <;> rfl

/-- The callee, and the scope in which it is looked up. -/
theorem exists_isCallee_nested :
  ∃ n, nestedOutline.IsCallee n ∧ n.name = "f" ∧ n.qualifier = none ∧ n.start = .known 6 4 ∧ n.stop = .known 6 5 ∧
    nestedOutline.scopeAsked (.known 6 4) = 2
  := by
  obtain ⟨n, hn, hsite⟩ := exists_isCallee textNow_nested outlineNow_nested callee_nested trivial
  obtain ⟨_, hname, hqualifier, _, hstart, hstop⟩ := Site.mk.inj hsite
  have hplace : n.start = .known 6 4 := hstart
  refine ⟨n, hn, hname, hqualifier, hstart, hstop, ?_⟩
  rw [← hplace]
  apply Outline.scopeAsked_eq hn.site
  intro s hs hsame
  have hscope := List.all_eq_true.mp recorded_nested.2.2.1 s (Outline.mem_sites_ofTree.mp hs)
  rw [decide_eq_true_eq] at hscope
  exact hscope (hsame.trans hplace)

/-- Both functions of the name are found to be used by the call. -/
theorem usage_nested {i parent : Nat} {f : Scope} (hf : nestedOutline.scopes[i]? = some f)
    (hparent : f.parent = some parent) (hname : f.name = "f")
    (hmember : memberNow nested [] (nestedOutline.definitionOf f) = false) :
  ∃ us,
    (Index.answer nested (.usages (.definition (nestedOutline.definitionOf f)) [⟨"/tmp/w/m.py"⟩]) {}).1 = .ok us ∧
    ∃ u ∈ us, (u.position == ⟨some ⟨"/tmp/w/m.py"⟩, .known 6 4, .known 6 5⟩) = true
  := by
  have ho := outlineNow_nested
  have hmodule := Outline.isModule_definitionOf (isRegular_of_outlineNow ho) hf hparent
  have hequal : ((nestedOutline.definitionOf f).path == some ⟨"/tmp/w/m.py"⟩) = true := beq_self_eq_true _
  obtain ⟨n, hn, hnname, hqualifier, hstart, hstop, _⟩ := exists_isCallee_nested
  have hcalled : n.name = (nestedOutline.definitionOf f).name := hnname.trans hname.symm
  have hrefers := hn.refersTo_own hqualifier hcalled
  rw [← hequal] at hrefers
  obtain ⟨us, hus, u, hu, hposition, _⟩ :=
    Index.Reached.empty.usage_of_refersTo .empty rfl ho hn (List.mem_singleton_self _)
      (fun p hp _ => ⟨_, List.mem_singleton.mp hp ▸ ho⟩) hmodule hmember
      (fun p hp _ => Option.some.inj hp ▸ .refl _) (.inl hequal) hrefers
  exact ⟨us, hus, u, hu, hstart ▸ hstop ▸ hposition⟩

/-- The call leads back to the nearer function. -/
theorem Index.Reached.target_iff_of_usage_nested :
  ∃ f us, nestedOutline.scopes[3]? = some f ∧
    (Index.answer nested (.usages (.definition (nestedOutline.definitionOf f)) [⟨"/tmp/w/m.py"⟩]) {}).1 = .ok us ∧
    (∃ u ∈ us, (u.position == ⟨some ⟨"/tmp/w/m.py"⟩, .known 6 4, .known 6 5⟩) = true) ∧
    ∃ s ∈ nestedOutline.sites, s.start = .known 6 4 ∧
      ∃ ds, (Index.answer nested (.targets (Survey.callSiteOf ⟨"/tmp/w/m.py"⟩ s)) {}).1 = .ok ds ∧
        ∃ e ∈ ds, (e == nestedOutline.definitionOf f) = true
  := by
  have ho := outlineNow_nested
  obtain ⟨f, hf, hparent, hname, hmember⟩ := exists_scope_nested (.inr ⟨rfl, rfl⟩)
  obtain ⟨us, hus, u, hu, hposition⟩ := usage_nested hf hparent hname hmember
  obtain ⟨s, hs, hfields, hown, _⟩ :=
    Index.Reached.target_iff_of_usage .empty .empty rfl textNow_nested ho ho callee_nested hf hparent hmember hus hu
      hposition
  have hstart : s.start = .known 6 4 := congrArg Site.start hfields
  refine ⟨f, us, hf, hus, ⟨u, hu, hposition⟩, s, hs, hstart, ?_⟩
  obtain ⟨_, _, _, _, _, _, hscope⟩ := exists_isCallee_nested
  rw [(hown (beq_self_eq_true _)).2, hstart, hscope]
  exact recorded_nested.2.2.2

/-- The call is a usage of the function at the top level, but does not lead back to it. -/
theorem Index.not_target_nested :
  Index.Reached nested {} ∧ outlineNow nested [] ⟨"/tmp/w/m.py"⟩ = .ok nestedOutline ∧
  ∃ f s us, nestedOutline.scopes[1]? = some f ∧ f.parent = some 0 ∧
    memberNow nested [] (nestedOutline.definitionOf f) = false ∧
    (Index.answer nested (.usages (.definition (nestedOutline.definitionOf f)) [⟨"/tmp/w/m.py"⟩]) {}).1 = .ok us ∧
    (∃ u ∈ us, (u.position == ⟨some ⟨"/tmp/w/m.py"⟩, .known 6 4, .known 6 5⟩) = true) ∧
    Tree.identifier "f" nestedCall ∈ (Parser.tree nestedText.toList).callees ∧
    s ∈ nestedOutline.sites ∧ s.start = .known 6 4 ∧ s.name = "f" ∧ s.qualifier = none ∧
    ¬ ∃ ds, (Index.answer nested (.targets (Survey.callSiteOf ⟨"/tmp/w/m.py"⟩ s)) {}).1 = .ok ds ∧
      ∃ e ∈ ds, (e == nestedOutline.definitionOf f) = true
  := by
  have ho := outlineNow_nested
  obtain ⟨f, hf, hparent, hname, hmember⟩ := exists_scope_nested (.inl ⟨rfl, rfl⟩)
  obtain ⟨us, hus, husage⟩ := usage_nested hf hparent hname hmember
  obtain ⟨n, hn, hnname, hqualifier, hstart, _, hscope⟩ := exists_isCallee_nested
  refine ⟨.empty, ho, f, n.site, us, hf, hparent, hmember, hus, husage, callee_nested, hn.site, hstart, hnname,
    hqualifier, ?_⟩
  have hlt := scopeAsked_lt ho hn
  rw [hstart, hscope] at hlt
  rw [Index.Reached.empty.target_iff ho hqualifier, hstart, hscope, hnname, ← hname, standsFor_own ho hlt hf hparent,
    hname, recorded_nested.2.2.2]
  nofun

end Nested

end CallGraph.Source
