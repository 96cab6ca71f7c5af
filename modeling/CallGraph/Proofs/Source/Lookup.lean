import CallGraph.Proofs.Builtins
import CallGraph.Proofs.Source.Served
import CallGraph.Source.Grammar

/-!
# What a plain name stands for

A plain name is looked for outwards from its scope, then among the imports of its file, then among the builtin
names, whose tables stand in order and are searched by halving.  `Outline.Denotes` says which definitions a name
stands for without following the search.  The search finds just these, be it that files are read anew or that their
outlines are taken from an index.
-/

namespace CallGraph.Source

variable {files : FileTree} {searchPath : List Path}

/-- The entries at the positions of those with a property are the entries with it. -/
theorem filterMap_getElem?_range {α : Type} (entries : List α) (p : α → Bool) :
  ((List.range entries.length).filter fun i => entries[i]?.any p).filterMap (fun i => entries[i]?) = entries.filter p
  := by
  induction entries with
  | nil => rfl
  | cons x xs ih =>
    have hrest : (((List.range xs.length).filter ((fun i => (x :: xs)[i]?.any p) ∘ Nat.succ)).map Nat.succ).filterMap
        (fun i => (x :: xs)[i]?) = xs.filter p := by
      rw [List.filterMap_map, ← ih]
      rfl
    rw [List.length_cons, List.range_succ_eq_map, List.filter_cons, List.filter_map, List.getElem?_cons_zero,
      Option.any_some, List.filter_cons]
    cases p x with
    | false => exact hrest
    | true => exact congrArg (x :: ·) hrest

namespace Outline

variable {o : Outline}

/-! ### The nearest definitions -/

/-- A name is defined directly in a scope. -/
def Defines (o : Outline) (owner : Nat) (name : String) : Prop :=
  ∃ s ∈ o.scopes, s.parent = some owner ∧ s.name = name

/-- A scope is looked into from another one: it is this one, or one around it that is no class. -/
structure LooksInto (o : Outline) (scope owner : Nat) : Prop where
  within : o.Within scope owner
  shown : owner = scope ∨ ∀ s, o.scopes[owner]? = some s → s.kind ≠ .classScope

/-- The nearest scope that is looked into from a scope and directly contains definitions of a name: all others
are further out. -/
structure IsNearest (o : Outline) (scope : Nat) (name : String) (owner : Nat) : Prop where
  looksInto : o.LooksInto scope owner
  defines : o.Defines owner name
  nearest : ∀ other, o.LooksInto scope other → o.Defines other name → o.Within owner other

/-- The definitions of a name directly in a scope, in the order in which they stand in the file. -/
def definitionsIn (o : Outline) (owner : Nat) (name : String) : List Definition :=
  (o.scopes.filter fun s => s.parent = some owner ∧ s.name = name).map o.definitionOf

theorem definitionsNamed_eq (owner : Nat) (name : String) :
  o.definitionsNamed owner name = o.definitionsIn owner name
  := by
  have hchildren : o.childrenNamed owner name =
      (List.range o.scopes.length).filter fun i =>
        o.scopes[i]?.any fun s => s.parent = some owner ∧ s.name = name := by
    apply List.filter_congr
    intro i _
    cases o.scopes[i]? with
    | none => rfl
    | some s => simp only [Option.any_some, Bool.decide_and, beq_eq_decide]
  have hdefinition : o.definition? = fun i => o.scopes[i]?.map o.definitionOf := rfl
  rw [definitionsNamed, hchildren, definitionsIn, ← filterMap_getElem?_range o.scopes, List.map_filterMap, hdefinition]

theorem isEmpty_definitionsIn {owner : Nat} {name : String} :
  (o.definitionsIn owner name).isEmpty = true ↔ ¬ o.Defines owner name
  := by
  rw [definitionsIn, List.isEmpty_map, List.isEmpty_iff, List.filter_eq_nil_iff]
  simp [Defines]

theorem isEmpty_childrenNamed {owner : Nat} {name : String} :
  (o.childrenNamed owner name).isEmpty = true ↔ ¬ o.Defines owner name
  := by
  rw [← isEmpty_definitionsNamed, definitionsNamed_eq, isEmpty_definitionsIn]

namespace IsRegular

variable {scope : Nat} {name : String} (ho : o.IsRegular) (hscope : scope < o.scopes.length)

include ho hscope

theorem mem_lookedInto_iff {owner : Nat} :
  owner ∈ o.lookedInto scope ↔ o.LooksInto scope owner
  := by
  have hshown : (owner == scope || (o.scopes[owner]?.map (·.kind)) != some .classScope) = true ↔
      owner = scope ∨ ∀ s, o.scopes[owner]? = some s → s.kind ≠ .classScope := by
    rw [Bool.or_eq_true, beq_iff_eq, bne_iff_ne, ne_eq, Option.map_eq_some_iff]
    simp
  rw [lookedInto, List.mem_filter, ho.mem_chain_iff hscope, hshown]
  constructor
  · rintro ⟨hwithin, hshown⟩
    exact ⟨hwithin, hshown⟩
  · rintro ⟨hwithin, hshown⟩
    exact ⟨hwithin, hshown⟩

/-- The scope that is found first is the nearest one. -/
theorem isNearest_of_nearest? {owner : Nat} (h : o.nearest? scope name = some owner) :
  o.IsNearest scope name owner
  := by
  obtain ⟨hdefines, before, after, hsplit, hbefore⟩ := List.find?_eq_some_iff_append.mp h
  have hnot {i : Nat} (hi : (!(o.childrenNamed i name).isEmpty) = true) : o.Defines i name := by
    rw [Bool.not_eq_true', ← Bool.not_eq_true, isEmpty_childrenNamed, not_not] at hi
    exact hi
  have hmem {i : Nat} : o.LooksInto scope i ↔ i ∈ before ∨ i = owner ∨ i ∈ after := by
    rw [← ho.mem_lookedInto_iff hscope, hsplit, List.mem_append, List.mem_cons]
  refine ⟨hmem.mpr (.inr (.inl rfl)), hnot hdefines, ?_⟩
  intro other hother hdefined
  have hordered : (o.lookedInto scope).Pairwise o.Within := (ho.pairwise_chain hscope).filter _
  rw [hsplit, List.pairwise_append, List.pairwise_cons] at hordered
  rcases hmem.mp hother with hbefore' | rfl | hafter
  · have hnone := hbefore other hbefore'
    rw [Bool.not_not, isEmpty_childrenNamed] at hnone
    exact absurd hdefined hnone
  · exact .refl
  · exact hordered.2.1.1 other hafter

/-- No scope is found if none that is looked into defines the name. -/
theorem nearest?_eq_none_iff_forall :
  o.nearest? scope name = none ↔ ∀ owner, o.LooksInto scope owner → ¬ o.Defines owner name
  := by
  rw [nearest?, List.find?_eq_none]
  simp only [ho.mem_lookedInto_iff hscope, Bool.not_eq_true', Bool.not_eq_false, isEmpty_childrenNamed]

/-- There is one nearest scope at most. -/
theorem nearest?_eq_some {owner : Nat} (h : o.IsNearest scope name owner) :
  o.nearest? scope name = some owner
  := by
  cases hnearest : o.nearest? scope name with
  | none => exact absurd h.defines ((ho.nearest?_eq_none_iff_forall hscope).mp hnearest owner h.looksInto)
  | some found =>
    have hfound := ho.isNearest_of_nearest? hscope hnearest
    rw [ho.within_antisymm (h.nearest found hfound.looksInto hfound.defines)
      (hfound.nearest owner h.looksInto h.defines)]

end IsRegular

end Outline

/-! ### What a name stands for -/

/-- A name is listed among the builtin ones. -/
def IsBuiltin (name : String) : Prop :=
  name ∈ Builtins.ignoredTable.toList ∨ name ∈ Builtins.otherTable.toList

theorem find?_localName_eq_none {imports : List Import} {name : String} :
  imports.find? (·.localName == name) = none ↔ ∀ i ∈ imports, i.localName ≠ name
  := by
  simp [List.find?_eq_none]

section Parsed

variable [Parser]

/-- What an attribute of a module stands for: its definitions at the top level of the file of the module, or else
the submodule of its name, if there is one. -/
inductive AttributeDenotes (files : FileTree) (searchPath : List Path) (extra : Option Path) (module attr : String) :
    List Definition → Prop where
  | defined {path : Path} {m : Outline} (hlocate : (fresh files searchPath).locate module extra = some path)
      (hread : outlineNow files searchPath path = .ok m) (hdefines : m.Defines 0 attr) :
      AttributeDenotes files searchPath extra module attr (m.definitionsIn 0 attr)
  | submodule (hundefined : ∀ path, (fresh files searchPath).locate module extra = some path →
        ∃ m, outlineNow files searchPath path = .ok m ∧ ¬ m.Defines 0 attr) :
      AttributeDenotes files searchPath extra module attr
        ((fresh files searchPath).locatedModule (module ++ "." ++ attr) extra)

/-- What an import makes its name stand for: the attribute that it takes from a module, or the module that it
binds, if that has a file. -/
inductive Import.Denotes (files : FileTree) (searchPath : List Path) (extra : Option Path) (i : Import) :
    List Definition → Prop where
  | taken {attr : String} {ds : List Definition} (hattr : i.attr = some attr)
      (h : AttributeDenotes files searchPath extra i.module attr ds) : Denotes files searchPath extra i ds
  | bound {bound : String} (hbound : i.boundModule = some bound) :
      Denotes files searchPath extra i ((fresh files searchPath).locatedModule bound extra)

/-- What a name stands for as seen from a scope: its definitions in the nearest scope that has any, or else what
the first import of the name makes it stand for, or else the builtin of the name, if there is one. -/
inductive Outline.Denotes (files : FileTree) (searchPath : List Path) (o : Outline) (scope : Nat) (name : String) :
    List Definition → Prop where
  | defined {owner : Nat} (h : o.IsNearest scope name owner) :
      Denotes files searchPath o scope name (o.definitionsIn owner name)
  | imported {i : Import} {ds : List Definition}
      (hundefined : ∀ owner, o.LooksInto scope owner → ¬ o.Defines owner name)
      (hfirst : o.imports.find? (·.localName == name) = some i)
      (h : i.Denotes files searchPath o.path.parent? ds) : Denotes files searchPath o scope name ds
  | builtin (hundefined : ∀ owner, o.LooksInto scope owner → ¬ o.Defines owner name)
      (himports : ∀ i ∈ o.imports, i.localName ≠ name) (h : IsBuiltin name) :
      Denotes files searchPath o scope name [builtinDefinition name]
  | unknown (hundefined : ∀ owner, o.LooksInto scope owner → ¬ o.Defines owner name)
      (himports : ∀ i ∈ o.imports, i.localName ≠ name) (h : ¬ IsBuiltin name) :
      Denotes files searchPath o scope name []

/-! ### The search -/

theorem inModule_of_defined {module attr : String} {extra : Option Path} {path : Path} {m : Outline}
    (hlocate : (fresh files searchPath).locate module extra = some path)
    (hread : outlineNow files searchPath path = .ok m) (hdefines : m.Defines 0 attr) :
  (fresh files searchPath).inModule module attr extra = .ok (m.definitionsIn 0 attr)
  := by
  unfold Survey.inModule
  rw [hlocate]
  dsimp only
  rw [outline_bind hread, m.definitionsNamed_eq]
  change (if (m.definitionsIn 0 attr).isEmpty then pure _ else pure _) = _
  rw [if_neg (fun hempty => Outline.isEmpty_definitionsIn.mp hempty hdefines)]
  rfl

theorem inModule_of_undefined {module attr : String} {extra : Option Path}
    (hundefined : ∀ path, (fresh files searchPath).locate module extra = some path →
      ∃ m, outlineNow files searchPath path = .ok m ∧ ¬ m.Defines 0 attr) :
  (fresh files searchPath).inModule module attr extra =
    .ok ((fresh files searchPath).locatedModule (module ++ "." ++ attr) extra)
  := by
  unfold Survey.inModule
  cases hlocate : (fresh files searchPath).locate module extra with
  | none => rfl
  | some path =>
    obtain ⟨m, hread, hnot⟩ := hundefined path hlocate
    dsimp only
    rw [outline_bind hread, m.definitionsNamed_eq]
    change (if (m.definitionsIn 0 attr).isEmpty then pure _ else pure _) = _
    rw [if_pos (Outline.isEmpty_definitionsIn.mpr hnot)]
    rfl

/-- An attribute is looked up as what it stands for. -/
theorem inModule_eq_ok_iff {module attr : String} {extra : Option Path} {ds : List Definition} :
  (fresh files searchPath).inModule module attr extra = .ok ds ↔
    AttributeDenotes files searchPath extra module attr ds
  := by
  constructor
  · intro h
    cases hlocate : (fresh files searchPath).locate module extra with
    | none =>
      have hundefined : ∀ path, (fresh files searchPath).locate module extra = some path →
          ∃ m, outlineNow files searchPath path = .ok m ∧ ¬ m.Defines 0 attr := by
        rw [hlocate]
        nofun
      cases (inModule_of_undefined hundefined).symm.trans h
      exact .submodule hundefined
    | some path =>
      cases hread : outlineNow files searchPath path with
      | error e =>
        unfold Survey.inModule at h
        rw [hlocate] at h
        dsimp only at h
        rw [outline_bind_error hread] at h
        cases h
      | ok m =>
        by_cases hdefines : m.Defines 0 attr
        · cases (inModule_of_defined hlocate hread hdefines).symm.trans h
          exact .defined hlocate hread hdefines
        · have hundefined : ∀ path, (fresh files searchPath).locate module extra = some path →
              ∃ m, outlineNow files searchPath path = .ok m ∧ ¬ m.Defines 0 attr := by
            rw [hlocate]
            rintro _ ⟨⟩
            exact ⟨m, hread, hdefines⟩
          cases (inModule_of_undefined hundefined).symm.trans h
          exact .submodule hundefined
  · intro h
    cases h with
    | defined hlocate hread hdefines => exact inModule_of_defined hlocate hread hdefines
    | submodule hundefined => exact inModule_of_undefined hundefined

/-- How the search goes on where no scope that is looked into defines the name. -/
def importedLookup (files : FileTree) (searchPath : List Path) (extra : Option Path) (i : Import) :
    Except ProviderError (List Definition) :=
  match i.attr with
  | some attr => (fresh files searchPath).inModule i.module attr extra
  | none => .ok ((i.boundModule.map fun bound => (fresh files searchPath).locatedModule bound extra).getD [])

/-- An imported name is looked up as what its import makes it stand for. -/
theorem importedLookup_eq_ok_iff {extra : Option Path} {i : Import} {ds : List Definition} :
  importedLookup files searchPath extra i = .ok ds ↔ i.Denotes files searchPath extra ds
  := by
  unfold importedLookup
  constructor
  · intro h
    split at h
    · rename_i attr hattr
      exact .taken hattr (inModule_eq_ok_iff.mp h)
    · rename_i hattr
      obtain ⟨bound, hbound⟩ : ∃ bound, i.boundModule = some bound := by
        rw [← Option.isSome_iff_exists, Import.boundModule, hattr]
        cases i.aliased <;> rfl
      rw [hbound] at h
      cases h
      exact .bound hbound
  · intro h
    cases h with
    | taken hattr h =>
      rw [hattr]
      exact inModule_eq_ok_iff.mpr h
    | bound hbound =>
      have hattr : i.attr = none := by
        unfold Import.boundModule at hbound
        split at hbound
        · cases hbound
        · rename_i hnone
          exact Option.not_isSome_iff_eq_none.mp hnone
      rw [hattr, hbound]
      rfl

section LookupName

variable {o : Outline} {scope : Nat} {name : String} {ds : List Definition}

theorem lookupName_of_nearest? {owner : Nat} (h : o.nearest? scope name = some owner) :
  (fresh files searchPath).lookupName o scope name = .ok (o.definitionsIn owner name)
  := by
  have hvisible : o.visible scope name = o.definitionsIn owner name := by
    rw [Outline.visible_eq, h, ← o.definitionsNamed_eq]
  have hne := List.find?_some h
  rw [← Outline.isEmpty_definitionsNamed, o.definitionsNamed_eq] at hne
  unfold Survey.lookupName
  rw [hvisible]
  cases hdefinitions : o.definitionsIn owner name with
  | nil =>
    rw [hdefinitions] at hne
    cases hne
  | cons d ds => rfl

theorem lookupName_of_none (h : o.nearest? scope name = none) :
  (fresh files searchPath).lookupName o scope name = match o.imports.find? (·.localName == name) with
    | some i => importedLookup files searchPath o.path.parent? i
    | none => .ok (if Builtins.isBuiltin name then [builtinDefinition name] else [])
  := by
  unfold Survey.lookupName
  rw [Outline.visible_eq, h]
  rfl

variable (ho : o.IsRegular) (hscope : scope < o.scopes.length)

include ho hscope

/-- What is found for a plain name is what it stands for. -/
theorem denotes_of_lookupName (h : (fresh files searchPath).lookupName o scope name = .ok ds) :
  o.Denotes files searchPath scope name ds
  := by
  cases hnearest : o.nearest? scope name with
  | some owner =>
    cases (lookupName_of_nearest? hnearest).symm.trans h
    exact .defined (ho.isNearest_of_nearest? hscope hnearest)
  | none =>
    have hundefined := (ho.nearest?_eq_none_iff_forall hscope).mp hnearest
    rw [lookupName_of_none hnearest] at h
    split at h
    · rename_i i hfirst
      exact .imported hundefined hfirst (importedLookup_eq_ok_iff.mp h)
    · rename_i hfirst
      have himports := find?_localName_eq_none.mp hfirst
      split at h
      · rename_i hbuiltin
        cases h
        exact .builtin hundefined himports (Builtins.isBuiltin_iff.mp hbuiltin)
      · rename_i hbuiltin
        cases h
        exact .unknown hundefined himports fun h => hbuiltin (Builtins.isBuiltin_iff.mpr h)

/-- What a plain name stands for is found for it. -/
theorem lookupName_of_denotes (h : o.Denotes files searchPath scope name ds) :
  (fresh files searchPath).lookupName o scope name = .ok ds
  := by
  cases h with
  | defined h => exact lookupName_of_nearest? (ho.nearest?_eq_some hscope h)
  | imported hundefined hfirst h =>
    rw [lookupName_of_none ((ho.nearest?_eq_none_iff_forall hscope).mpr hundefined), hfirst]
    exact importedLookup_eq_ok_iff.mpr h
  | builtin hundefined himports h =>
    rw [lookupName_of_none ((ho.nearest?_eq_none_iff_forall hscope).mpr hundefined),
      find?_localName_eq_none.mpr himports, if_pos (Builtins.isBuiltin_iff.mpr h)]
  | unknown hundefined himports h =>
    rw [lookupName_of_none ((ho.nearest?_eq_none_iff_forall hscope).mpr hundefined),
      find?_localName_eq_none.mpr himports, if_neg (fun hbuiltin => h (Builtins.isBuiltin_iff.mp hbuiltin))]

end LookupName

/-- A search for a plain name from a scope of a file, that takes the outlines of files from an index. -/
def Index.lookupName (files : FileTree) (path : Path) (scope : Nat) (name : String) :
    ExceptT ProviderError (StateM Index) (List Definition) := fun x =>
  let s := x.survey files
  (s.outline path >>= fun o => s.lookupName o scope name) x

/-- Plain names are looked up by the order of scopes.  As seen from a scope of a file, every name stands for just
one list of definitions.  The search finds it in files that are read anew, and also, but for the spelling of paths,
through an index, whatever that was asked before. -/
theorem Index.Reached.finds_denoted (hpy : ReadsPython files) {x : Index} (hx : x.Reached files) {path : Path}
    {o : Outline} (ho : outlineNow files x.searchPath path = .ok o) {scope : Nat} (hscope : scope < o.scopes.length)
    (name : String) :
  ∃ ds, (∀ es, o.Denotes files x.searchPath scope name es ↔ es = ds) ∧
    (fresh files x.searchPath).lookupName o scope name = .ok ds ∧
    ∃ es, (Index.lookupName files path scope name x).1 = .ok es ∧ List.Forall₂ (Definition.Alike files) es ds
  := by
  have hregular := isRegular_of_outlineNow ho
  obtain ⟨ds, hds, _⟩ := gives_lookupName hpy ho scope name
  refine ⟨ds, fun es => ⟨fun hes => ?_, ?_⟩, hds, ?_⟩
  · cases hds.symm.trans (lookupName_of_denotes hregular hscope hes)
    rfl
  · rintro rfl
    exact denotes_of_lookupName hregular hscope hds
  · have hmirrors : Mirrors files x.searchPath (List.Forall₂ (Definition.Alike files))
        ((indexed files x.searchPath).outline path >>= fun o => (indexed files x.searchPath).lookupName o scope name)
        ((fresh files x.searchPath).outline path >>= fun o => (fresh files x.searchPath).lookupName o scope name) :=
      (mirrors_load (.refl path)).bind fun _ _ h => mirrors_lookupName h scope name
    obtain ⟨hout, _⟩ := hmirrors (· = files) rfl (by rintro _ rfl; exact .refl _) x ⟨hx.isCurrent, rfl⟩
    rw [outline_bind ho, hds] at hout
    change Outcome files _ (Index.lookupName files path scope name x).1 _ at hout
    generalize (Index.lookupName files path scope name x).1 = r at hout
    cases hout with
    | ok h => exact ⟨_, rfl, h⟩

end Parsed

/-! ### A method and a function of the same name -/

section Methods

open scoped Grammar

/-- A text with a method that calls a function of its own name. -/
def methodText : String :=
  "class C:\n    def f(self):\n        f()\n\n\ndef f():\n    pass\n"

/-- A file with this text. -/
def methods : FileTree :=
  { entries := [(["tmp"], .directory), (["tmp", "w"], .directory),
      (["tmp", "w", "m.py"], .file methodText.toUTF8 0)] }

def methodOutline : Outline :=
  .ofSource ⟨"/tmp/w/m.py"⟩ "m" methodText

theorem outlineNow_methods :
  outlineNow methods [] ⟨"/tmp/w/m.py"⟩ = .ok methodOutline
  := by
  have htext : textNow methods ⟨"/tmp/w/m.py"⟩ = some methodText := by decide +kernel
  have hmodule : moduleNameOf methods [] ⟨"/tmp/w/m.py"⟩ = "m" := by decide
  rw [outlineNow_of_text htext, hmodule]
  rfl

theorem readsPython_methods :
  ReadsPython methods
  := by
  apply readsPython_of_entries (FileTree.isSound_of_entries (by decide) rfl (List.forall_mem_nil _))
  intro octets modified hmem
  simp only [methods, List.map_cons, List.map_nil, List.mem_cons, reduceCtorEq, FileTree.Entry.file.injEq,
    List.not_mem_nil, or_false, false_or] at hmem
  rw [hmem.1]
  decide +kernel

/-- Inside the method its name is found at the top level of the file, inside the class in the class. -/
theorem recorded_methods :
  methodOutline.scopes.map (fun s => (s.parent, s.name, s.kind)) =
      [(none, "m", .module), (some 0, "C", .classScope), (some 1, "f", .function), (some 0, "f", .function)] ∧
    methodOutline.nearest? 2 "f" = some 0 ∧ methodOutline.nearest? 1 "f" = some 1 ∧
    (methodOutline.definitionsIn 0 "f").map (·.start) = [.known 6 4]
  := by
  decide +kernel

/-- Inside the method, its name stands for the function. -/
theorem Index.Reached.finds_denoted_methods :
  ∃ ds, methodOutline.Denotes methods [] 2 "f" ds ∧ ds.map (·.start) = [.known 6 4] ∧
    ∃ es, (Index.lookupName methods ⟨"/tmp/w/m.py"⟩ 2 "f" {}).1 = .ok es ∧
      List.Forall₂ (Definition.Alike methods) es ds
  := by
  have hscope : 2 < methodOutline.scopes.length := by
    have hlength := congrArg List.length recorded_methods.1
    rw [List.length_map] at hlength
    rw [hlength]
    decide
  obtain ⟨ds, hdenotes, _, hfound⟩ :=
    Index.Reached.finds_denoted readsPython_methods .empty outlineNow_methods hscope "f"
  have hnearest := (isRegular_of_outlineNow outlineNow_methods).isNearest_of_nearest? hscope recorded_methods.2.1
  obtain rfl := (hdenotes _).mp (.defined hnearest)
  exact ⟨_, .defined hnearest, recorded_methods.2.2.2, hfound⟩

end Methods

end CallGraph.Source
