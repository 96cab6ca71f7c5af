import CallGraph.Proofs.Source.Usages

/-!
# Calls seen from what they call

A call that stands for a definition is found again when the usages of the definition are searched, as long as
the file of the call has a name for it: a plain callee is a usage of a definition of its own file with this
name, and of a definition of another file that is imported under this name; a callee behind a dot is a usage
of a definition whose module has the name before the dot.
-/

namespace CallGraph.Source

variable {files : FileTree} {searchPath : List Path}

namespace Outline

/-- A definition is among those of a name that are seen from a scope of its own file. -/
def Sees (o : Outline) (scope : Nat) (name : String) (d : Definition) : Prop :=
  ∃ e ∈ o.visible scope name, (d == e) = true

/-- A definition is imported from its module under a name. -/
def ImportsAs (o : Outline) (name : String) (d : Definition) : Prop :=
  ∃ i ∈ o.imports, i.localName = name ∧ i.module = d.module ∧ i.attr = some d.name

/-- A module as a whole has a name: that of a plain import, or the one an import or a from-import gives it. -/
def NamesModule (o : Outline) (name module : String) : Prop :=
  ∃ i ∈ o.imports, i.whole = module ∧ name = if i.attr.isSome || i.aliased then i.localName else i.module

variable {o : Outline} {n : NameRef} {d : Definition}

theorem importsModule_of_importsAs {name : String} (h : o.ImportsAs name d) :
  o.importsModule d.module = true
  := by
  obtain ⟨i, hi, _, hmodule, hattr⟩ := h
  rw [importsModule, List.any_eq_true]
  exact ⟨i, hi, by simp [hmodule, hattr]⟩

theorem importsModule_of_namesModule {name module : String} (h : o.NamesModule name module) :
  o.importsModule module = true
  := by
  obtain ⟨i, hi, hwhole, _⟩ := h
  rw [importsModule, List.any_eq_true]
  refine ⟨i, hi, ?_⟩
  unfold Import.whole at hwhole
  split at hwhole <;> simp_all

namespace IsCallee

variable (h : o.IsCallee n)

include h

/-- A plain callee is a usage of every definition of its file with this name. -/
theorem refersTo_own (hqualifier : n.qualifier = none) (hname : n.name = d.name) :
  o.refersTo d false true n = true
  := by
  simp [refersTo, h.notImport, hqualifier, hname]

/-- A plain callee is a usage of a definition that is imported under this name. -/
theorem refersTo_imported (hqualifier : n.qualifier = none) (himports : o.ImportsAs n.name d) :
  o.refersTo d false false n = true
  := by
  obtain ⟨i, hi, hlocal, hmodule, hattr⟩ := himports
  have halias : n.name ∈ o.aliasesOf d := by
    rw [aliasesOf, List.mem_map]
    exact ⟨i, List.mem_filter.mpr ⟨hi, by simp [hmodule, hattr]⟩, hlocal⟩
  simp [refersTo, h.notImport, hqualifier, halias]

/-- A callee behind a dot is a usage of a definition whose module has the name before the dot. -/
theorem refersTo_qualified {qualifier : String} (hqualifier : n.qualifier = some qualifier)
    (hname : n.name = d.name) (hmodule : o.NamesModule qualifier d.module) (sameFile : Bool) :
  o.refersTo d false sameFile n = true
  := by
  obtain ⟨i, hi, hwhole, heq⟩ := hmodule
  have hnames : qualifier ∈ o.namesOfModule d.module := by
    rw [namesOfModule, List.mem_filterMap]
    exact ⟨i, hi, by simp [hwhole, heq]⟩
  simp [refersTo, h.notImport, hqualifier, hname, hnames]

end IsCallee

/-- An occurrence that refers to a definition is among its usages, if the file is its own or imports its
module. -/
theorem usage_mem_usagesOf (hn : n ∈ o.names) (hd : d.isModule = false) {isMember : Bool}
    (hfile : (d.path == some o.path) = true ∨ o.importsModule d.module = true)
    (hrefers : o.refersTo d isMember (d.path == some o.path) n = true) :
  o.usage d.name n.start n.stop ∈ o.usagesOf d isMember
  := by
  rw [usagesOf, hd, if_neg Bool.false_ne_true, if_pos (by simpa using hfile)]
  exact List.mem_map_of_mem (List.mem_filter.mpr ⟨hn, hrefers⟩)

theorem path_of_mem_usagesOf {isMember : Bool} {u : Usage} (h : u ∈ o.usagesOf d isMember) :
  u.path = some o.path
  := by
  unfold usagesOf at h
  dsimp only at h
  split at h
  · obtain ⟨i, _, rfl⟩ := List.mem_map.mp h
    rfl
  · split at h
    · obtain ⟨n, _, rfl⟩ := List.mem_map.mp h
      rfl
    · cases h

/-- A definition of a name directly inside a scope is made from one of the scopes of the file. -/
theorem exists_scope_of_definitionsNamed {owner : Nat} {name : String} {e : Definition}
    (h : e ∈ o.definitionsNamed owner name) :
  ∃ (i : Nat) (s : Scope), o.scopes[i]? = some s ∧ s.parent = some owner ∧ s.name = name ∧ e = o.definitionOf s
  := by
  rw [definitionsNamed, List.mem_filterMap] at h
  obtain ⟨i, hi, hdefinition⟩ := h
  obtain ⟨s, hs, rfl⟩ := Option.map_eq_some_iff.mp hdefinition
  have hchild := (List.mem_filter.mp hi).2
  rw [hs, Bool.and_eq_true, beq_iff_eq, beq_iff_eq] at hchild
  exact ⟨i, s, hs, hchild.1, hchild.2, rfl⟩

/-- The scopes that a name is looked for in from a scope: this scope, and those around it that are no
classes. -/
def lookedInto (o : Outline) (scope : Nat) : List Nat :=
  (o.chain scope).filter fun i => i == scope || (o.scopes[i]?.map (·.kind)) != some .classScope

/-- A definition that is seen from a scope stands directly in one of the scopes looked into. -/
theorem exists_owner_of_visible {scope : Nat} {name : String} {e : Definition} (h : e ∈ o.visible scope name) :
  ∃ owner ∈ o.lookedInto scope, e ∈ o.definitionsNamed owner name
  := by
  unfold visible at h
  dsimp only at h
  cases hfind : List.find? (fun ds => !ds.isEmpty)
      (List.map (fun i => o.definitionsNamed i name) (o.lookedInto scope)) with
  | none =>
    rw [lookedInto] at hfind
    rw [hfind] at h
    cases h
  | some ds =>
    obtain ⟨owner, howner, rfl⟩ := List.mem_map.mp (List.mem_of_find?_eq_some hfind)
    rw [lookedInto] at hfind
    rw [hfind, Option.getD_some] at h
    exact ⟨owner, howner, h⟩

/-- A definition that is seen from a scope is a function or class of the file with the name. -/
theorem exists_scope_of_visible {scope : Nat} {name : String} {e : Definition} (h : e ∈ o.visible scope name) :
  ∃ (i : Nat) (s : Scope) (parent : Nat),
    o.scopes[i]? = some s ∧ s.parent = some parent ∧ s.name = name ∧ e = o.definitionOf s
  := by
  obtain ⟨owner, _, hnamed⟩ := exists_owner_of_visible h
  obtain ⟨i, s, hs⟩ := exists_scope_of_definitionsNamed hnamed
  exact ⟨i, s, owner, hs⟩

end Outline

/-- The scope in which what is called at a place is looked up. -/
def Outline.scopeAsked (o : Outline) (place : Location) : Nat :=
  Survey.scopeAt o ((o.siteAt place).map (·.scope)) place

/-- If all sites at the place of a site stand in one scope, what is called there is looked up in this one. -/
theorem Outline.scopeAsked_eq {o : Outline} {s : Site} (hs : s ∈ o.sites) {scope : Nat}
    (hscope : ∀ t ∈ o.sites, t.start = s.start → t.scope = scope) :
  o.scopeAsked s.start = scope
  := by
  unfold scopeAsked
  cases hfound : o.siteAt s.start with
  | none =>
    have hnone := List.find?_eq_none.mp hfound s hs
    exact absurd (decide_eq_true rfl) hnone
  | some t =>
    have hstart := List.find?_some hfound
    rw [decide_eq_true_eq] at hstart
    exact hscope t (List.mem_of_find?_eq_some hfound) hstart

theorem isFile_of_moduleFileIn {module : String} {directory p : Path}
    (h : Survey.moduleFileIn files module directory = some p) :
  files.isFile p = true
  := by
  unfold Survey.moduleFileIn at h
  dsimp only at h
  split at h
  · rename_i hfile
    obtain rfl := Option.some.inj h
    exact hfile
  · split at h
    · rename_i hmarker
      obtain rfl := Option.some.inj h
      exact hmarker
    · cases h

variable [Parser]

/-- Equal spellings under which a file can be read lead to the same place. -/
theorem same_of_readable {p q : Path} (h : (p == q) = true) {o o' : Outline}
    (hp : outlineNow files searchPath p = .ok o) (hq : outlineNow files searchPath q = .ok o') :
  files.Same p q
  := by
  obtain ⟨place, octets, modified, hplace⟩ := lookup_of_outlineNow hp
  obtain ⟨place', octets', modified', hplace'⟩ := lookup_of_outlineNow hq
  exact ⟨h, FileTree.lookup_of_file h hplace hplace'⟩

theorem outlineNow_alike {p q : Path} (h : files.Same p q) {o : Outline}
    (hp : outlineNow files searchPath p = .ok o) :
  ∃ o', outlineNow files searchPath q = .ok o' ∧ o.Alike files o'
  := by
  have hcongr := outlineNow_congr h searchPath
  rw [hp] at hcongr
  generalize outlineNow files searchPath q = r at hcongr
  cases hcongr with
  | ok ho => exact ⟨_, rfl, ho⟩

/-- Whether a definition stands directly in a class does not depend on the spelling of its file. -/
theorem memberNow_congr {d e : Definition} (h : d.Alike files e) :
  memberNow files searchPath d = memberNow files searchPath e
  := by
  have hpath := h.path
  unfold memberNow
  generalize hd : d.path = p at hpath
  generalize he : e.path = q at hpath
  cases hpath with
  | none => rfl
  | some hsame =>
    have hread := outlineNow_congr hsame searchPath
    rw [Option.map_some, Option.map_some]
    generalize outlineNow files searchPath _ = r at hread
    generalize outlineNow files searchPath _ = r' at hread
    cases hread with
    | error => rfl
    | ok ho => 
      dsimp only
      rw [Outline.nestsInClass, Outline.nestsInClass, ho.scopeOf h, ho.scopes]

/-- A usage in one of the files searched is found, perhaps under another spelling of the file. -/
theorem exists_usage_fresh {path : Path} {o : Outline} (ho : outlineNow files searchPath path = .ok o)
    {paths : List Path} (hpath : path ∈ paths)
    (hread : ∀ p ∈ paths, (p == path) = true → ∃ o', outlineNow files searchPath p = .ok o') {d : Definition}
    (hown : ∀ p, d.path = some p → (p == path) = true → files.Same p path) {u : Usage}
    (hu : u ∈ o.usagesOf d (memberNow files searchPath d)) :
  ∃ us, (fresh files searchPath).answer (.usages (.definition d) paths) = .ok us ∧
    ∃ u' ∈ us, u.Alike files u'
  := by
  obtain ⟨p, hp, hequal⟩ := Survey.exists_mem_filesFor (d := d) hpath
  have hsame : files.Same p path := by
    rcases Survey.mem_filesFor hp with hp | hp
    · obtain ⟨o', ho'⟩ := hread p hp hequal
      exact same_of_readable hequal ho' ho
    · exact hown p hp hequal
  obtain ⟨o', ho', halike⟩ := outlineNow_alike hsame.symm ho
  obtain ⟨u', hu', halike'⟩ : ∃ u' ∈ o'.usagesOf d (memberNow files searchPath d), u.Alike files u' :=
    exists_mem_of_forall₂ (halike.usagesOf (.refl d) _) hu
  refine ⟨_, usages_fresh d paths, u', List.mem_flatMap.mpr ⟨p, hp, ?_⟩, halike'⟩
  rw [usagesNow, ho']
  exact hu'

/-- A usage found in a file stands in it, and the file can be read. -/
theorem exists_of_mem_usagesNow {d : Definition} {isMember : Bool} {p : Path} {u : Usage}
    (hu : u ∈ usagesNow files searchPath d isMember p) :
  ∃ o, outlineNow files searchPath p = .ok o ∧ u.path = some p
  := by
  unfold usagesNow at hu
  split at hu
  · rename_i o ho
    exact ⟨o, ho, path_of_outlineNow ho ▸ Outline.path_of_mem_usagesOf hu⟩
  · cases hu

/-- Where usages are found, a file can be read. -/
theorem Index.Reached.readable_of_usage {y : Index} (hy : y.Reached files) {d : Definition}
    {paths : List Path} {us : List Usage}
    (hus : (Index.answer files (.usages (.definition d) paths) y).1 = .ok us) {u : Usage} (hu : u ∈ us) :
  ∃ p o, u.path = some p ∧ outlineNow files y.searchPath p = .ok o
  := by
  obtain ⟨vs, hvs, halike⟩ := hy.fresh_of_answer (q := .usages (.definition d) paths) hus
  obtain ⟨v, hv, huv⟩ := exists_mem_of_forall₂ halike hu
  change (fresh files y.searchPath).answer _ = _ at hvs
  rw [usages_fresh] at hvs
  cases hvs
  obtain ⟨q, hq, hv⟩ := List.mem_flatMap.mp hv
  obtain ⟨o, ho, hpath⟩ := exists_of_mem_usagesNow hv
  have hpaths := huv.path
  rw [hpath] at hpaths
  obtain ⟨p, hp, hsame⟩ := exists_of_optionRel hpaths
  obtain ⟨o', ho', _⟩ := outlineNow_alike hsame.symm ho
  exact ⟨p, o', hp, ho'⟩

/-! ### The forward side -/

/-- A name of a module stands for its definitions at the top level of the module's file, if there are any,
else for a submodule. -/
theorem inModule_fresh {module name : String} {extra : Option Path} {ds : List Definition}
    (h : (fresh files searchPath).inModule module name extra = .ok ds) :
  (∃ p o, (fresh files searchPath).locate module extra = some p ∧ outlineNow files searchPath p = .ok o ∧
    ds = o.definitionsNamed 0 name) ∨
  ds = (fresh files searchPath).locatedModule (module ++ "." ++ name) extra
  := by
  unfold Survey.inModule at h
  cases hlocate : (fresh files searchPath).locate module extra with
  | none =>
    rw [hlocate] at h
    cases h
    exact .inr rfl
  | some p =>
    rw [hlocate] at h
    dsimp only at h
    cases hread : outlineNow files searchPath p with
    | error e =>
      rw [outline_bind_error hread] at h
      cases h
    | ok o =>
      rw [outline_bind hread] at h
      change (if (o.definitionsNamed 0 name).isEmpty then pure _ else pure _) = _ at h
      split at h
      · cases h
        exact .inr rfl
      · cases h
        exact .inl ⟨p, o, rfl, hread, rfl⟩

/-- What is located is a file. -/
theorem isFile_of_locate {module : String} {extra : Option Path} {p : Path}
    (h : (fresh files searchPath).locate module extra = some p) :
  files.isFile p = true
  := by
  unfold Survey.locate at h
  split at h
  · cases h
  · obtain ⟨directory, _, hdirectory⟩ := List.exists_of_findSome?_eq_some h
    exact isFile_of_moduleFileIn hdirectory

theorem isModule_of_mem_locatedModule {name : String} {extra : Option Path} {d : Definition}
    (h : d ∈ (fresh files searchPath).locatedModule name extra) :
  d.isModule = true
  := by
  unfold Survey.locatedModule at h
  rw [Option.mem_toList, Option.map_eq_some_iff] at h
  obtain ⟨p, _, rfl⟩ := h
  rfl

/-- What is found inside a class has the name that is looked for. -/
theorem name_of_members {name : String} {d e : Definition} {ds : List Definition}
    (h : (fresh files searchPath).members name d = .ok ds) (he : e ∈ ds) :
  e.name = name
  := by
  unfold Survey.members at h
  cases hpath : d.path with
  | none =>
    rw [hpath] at h
    cases h
    cases he
  | some p =>
    rw [hpath] at h
    obtain ⟨o, _, h⟩ := exists_of_bind h
    cases h
    cases hscope : o.scopeOf d with
    | none =>
      rw [hscope] at he
      cases he
    | some scope =>
      rw [hscope] at he
      obtain ⟨i, s, _, _, hname, rfl⟩ := Outline.exists_scope_of_definitionsNamed he
      exact hname

theorem name_of_membersOfClasses {name : String} {classes ds : List Definition} {e : Definition}
    (h : (fresh files searchPath).membersOfClasses name classes = .ok ds) (he : e ∈ ds) :
  e.name = name
  := by
  induction classes generalizing ds with
  | nil =>
    cases h
    cases he
  | cons d classes ih =>
    have hrest (first : List Definition) (hfirst : e ∈ first → e.name = name)
        (h : ((fresh files searchPath).membersOfClasses name classes >>= fun rest => pure (first ++ rest)) = .ok ds) :
        e.name = name := by
      obtain ⟨rest, hrest, h⟩ := exists_of_bind h
      cases h
      rcases List.mem_append.mp he with he | he
      · exact hfirst he
      · exact ih hrest he
    unfold Survey.membersOfClasses at h
    split at h
    · obtain ⟨first, hfirst, h⟩ := exists_of_bind h
      exact hrest first (name_of_members hfirst) h
    · exact hrest [] (by simp) h

/-- A definition that a name behind a dot stands for has this name, unless it is a module. -/
theorem name_of_lookupAttribute {o : Outline} {scope : Nat} {name : String} {receiver : Receiver}
    {ds : List Definition} (h : (fresh files searchPath).lookupAttribute o scope name receiver = .ok ds)
    {d : Definition} (hd : d ∈ ds) (hmodule : d.isModule = false) :
  d.name = name
  := by
  have hinModule {module : String} {extra : Option Path}
      (h : (fresh files searchPath).inModule module name extra = .ok ds) : d.name = name := by
    rcases inModule_fresh h with ⟨p, o', _, _, rfl⟩ | rfl
    · obtain ⟨i, s, _, _, hname, rfl⟩ := Outline.exists_scope_of_definitionsNamed hd
      exact hname
    · rw [isModule_of_mem_locatedModule hd] at hmodule
      cases hmodule
  unfold Survey.lookupAttribute at h
  split at h
  · cases h
    cases hclass : o.enclosingClass scope with
    | none =>
      rw [hclass] at hd
      cases hd
    | some owner =>
      rw [hclass] at hd
      obtain ⟨i, s, _, _, hname, rfl⟩ := Outline.exists_scope_of_definitionsNamed hd
      exact hname
  · obtain ⟨classes, _, h⟩ := exists_of_bind h
    exact name_of_membersOfClasses h hd
  · obtain ⟨classes, _, h⟩ := exists_of_bind h
    exact name_of_membersOfClasses h hd
  · split at h
    · exact hinModule h
    · split at h
      · obtain ⟨classes, _, h⟩ := exists_of_bind h
        exact name_of_membersOfClasses h hd
      · cases h
        cases hd

/-- The target of a call site is what its name stands for in the scope that is found at its place. -/
theorem targets_fresh {path : Path} {o : Outline} (ho : outlineNow files searchPath path = .ok o) {s : Site}
    (hrole : s.role = .child) :
  (fresh files searchPath).answer (.targets (Survey.callSiteOf path s)) =
    (fresh files searchPath).lookup o (o.scopeAsked s.start) s.qualifier s.name
  := by
  have hnot : ¬ (Survey.callSiteOf path s).role = .definition := by
    rw [Survey.callSiteOf, hrole]
    nofun
  change (fresh files searchPath).targets (Survey.callSiteOf path s) = _
  unfold Survey.targets
  dsimp only [Survey.callSiteOf]
  rw [outline_bind ho]
  exact if_neg hnot

/-- What is found by a plain name stands at a place that exists, if it stands in a file. -/
theorem exists_lookup_of_lookupName {path : Path} {o : Outline} (ho : outlineNow files searchPath path = .ok o)
    {scope : Nat} {name : String} {ds : List Definition}
    (h : (fresh files searchPath).lookupName o scope name = .ok ds) {d : Definition} (hd : d ∈ ds) {p : Path}
    (hp : d.path = some p) :
  ∃ found, files.lookup p = .ok found
  := by
  have hnamed {q : Path} {o' : Outline} (ho' : outlineNow files searchPath q = .ok o') {s : Scope}
      (heq : d = o'.definitionOf s) : ∃ found, files.lookup p = .ok found := by
    subst heq
    obtain rfl : o'.path = p := Option.some.inj hp
    rw [path_of_outlineNow ho']
    obtain ⟨place, octets, modified, hplace⟩ := lookup_of_outlineNow ho'
    exact ⟨_, hplace⟩
  have hlocated {module : String} {extra : Option Path}
      (hd : d ∈ (fresh files searchPath).locatedModule module extra) : ∃ found, files.lookup p = .ok found := by
    unfold Survey.locatedModule at hd
    obtain ⟨q, hq, rfl⟩ := Option.map_eq_some_iff.mp (Option.mem_toList.mp hd)
    cases hp
    have hfile := isFile_of_locate hq
    unfold FileTree.isFile at hfile
    split at hfile
    · rename_i hlookup
      exact ⟨_, hlookup⟩
    · cases hfile
  unfold Survey.lookupName at h
  split at h
  · rename_i e es hvisible
    cases h
    obtain ⟨_, s, _, _, _, _, heq⟩ := Outline.exists_scope_of_visible (hvisible ▸ hd)
    exact hnamed ho heq
  · split at h
    · split at h
      · rcases inModule_fresh h with ⟨q, o', _, ho', rfl⟩ | rfl
        · obtain ⟨_, s, _, _, _, heq⟩ := Outline.exists_scope_of_definitionsNamed hd
          exact hnamed ho' heq
        · exact hlocated hd
      · rename_i i _ _ _
        cases h
        cases hbound : i.boundModule with
        | none =>
          rw [hbound] at hd
          cases hd
        | some bound =>
          rw [hbound] at hd
          exact hlocated hd
    · split at h
      · cases h
        obtain rfl := List.mem_singleton.mp hd
        cases hp
      · cases h
        cases hd

/-- The scope around a usage at the place of a callee is that of the callee. -/
theorem enclosing_fresh [SoundParser] {path p : Path} {o : Outline} (ho : outlineNow files searchPath path = .ok o)
    (hsame : files.Same path p) {n : NameRef} (h : o.IsCallee n) {u : Usage} (hpath : u.path = some p)
    (hstart : u.start = n.start) :
  ∃ e, (fresh files searchPath).answer (.enclosing u) = .ok e ∧
    ∃ e', o.definition? n.scope = some e' ∧ e'.Alike files e
  := by
  obtain ⟨o', ho', halike⟩ := outlineNow_alike hsame ho
  have hregular := isRegular_of_outlineNow ho
  obtain ⟨e', he'⟩ : ∃ e', o.definition? n.scope = some e' := by
    have hscope := hregular.name n h.name
    exact ⟨_, by rw [Outline.definition?, List.getElem?_eq_getElem hscope, Option.map_some]⟩
  have hdefinition := halike.definition? n.scope
  rw [he'] at hdefinition
  cases hp : o'.definition? n.scope with
  | none =>
    rw [hp] at hdefinition
    cases hdefinition
  | some e =>
    rw [hp] at hdefinition
    cases hdefinition with
    | some he =>
      refine ⟨e, ?_, e', he', he⟩
      change (fresh files searchPath).enclosing u = _
      unfold Survey.enclosing
      rw [hpath]
      dsimp only
      rw [outline_bind ho', halike.nameAt, hstart, (isDistinct_of_outlineNow ho).nameAt h.name]
      have hscope : Survey.scopeAt o' ((some n).map (·.scope)) n.start = n.scope := rfl
      rw [hscope, hp]
      rfl

/-- A target that is seen in the file of the call has the callee's name, and stands in this file. -/
theorem Index.Reached.target_of_sees {x : Index} (hx : x.Reached files) {path : Path} {o : Outline}
    (ho : outlineNow files x.searchPath path = .ok o) {n : NameRef} (hqualifier : n.qualifier = none)
    {ds : List Definition} (hds : (Index.answer files (.targets (Survey.callSiteOf path n.site)) x).1 = .ok ds)
    {d : Definition} (hd : d ∈ ds) (hsees : o.Sees n.scope n.name d) :
  d.name = n.name ∧ ∃ p, d.path = some p ∧ files.Same p path
  := by
  obtain ⟨es, hes, halike⟩ := hx.fresh_of_answer hds
  change (fresh files x.searchPath).answer _ = _ at hes
  rw [targets_fresh ho rfl] at hes
  change (fresh files x.searchPath).lookup o _ n.qualifier n.name = _ at hes
  rw [hqualifier] at hes
  change (fresh files x.searchPath).lookupName o _ n.name = _ at hes
  obtain ⟨e, he, hde⟩ := hsees
  obtain ⟨i, s, parent, _, _, hname, rfl⟩ := Outline.exists_scope_of_visible he
  obtain ⟨hpaths, hnames, _⟩ := Definition.beq_iff.mp hde
  refine ⟨hnames.trans hname, ?_⟩
  cases hp : d.path with
  | none =>
    rw [hp] at hpaths
    cases hpaths
  | some p =>
    rw [hp] at hpaths
    change (p == o.path) = true at hpaths
    rw [path_of_outlineNow ho] at hpaths
    refine ⟨p, rfl, hpaths, ?_⟩
    -- the target leads to where a definition that was looked up leads
    obtain ⟨e', he', hde'⟩ := exists_mem_of_forall₂ halike hd
    have hsame := hde'.path
    rw [hp] at hsame
    obtain ⟨q, hq, hsame⟩ := exists_of_optionRel (optionRel_symm hsame)
    obtain ⟨found, hfound⟩ := exists_lookup_of_lookupName ho hes he' hq
    obtain ⟨place, octets, modified, hplace⟩ := lookup_of_outlineNow ho
    exact FileTree.lookup_of_file hpaths (hsame.lookup ▸ hfound) hplace

/-- A target of a callee behind a dot has the callee's name, unless it is a module. -/
theorem Index.Reached.name_of_target {x : Index} (hx : x.Reached files) {path : Path} {o : Outline}
    (ho : outlineNow files x.searchPath path = .ok o) {n : NameRef} {qualifier : String}
    (hqualifier : n.qualifier = some qualifier) {ds : List Definition}
    (hds : (Index.answer files (.targets (Survey.callSiteOf path n.site)) x).1 = .ok ds) {d : Definition}
    (hd : d ∈ ds) (hmodule : d.isModule = false) :
  d.name = n.name
  := by
  obtain ⟨es, hes, halike⟩ := hx.fresh_of_answer hds
  change (fresh files x.searchPath).answer _ = _ at hes
  rw [targets_fresh ho rfl] at hes
  change (fresh files x.searchPath).lookup o _ n.qualifier n.name = _ at hes
  rw [hqualifier] at hes
  change (fresh files x.searchPath).lookupAttribute o _ n.name _ = _ at hes
  obtain ⟨e, he, hde⟩ := exists_mem_of_forall₂ halike hd
  have hmodule' : e.isModule = false := by
    rw [Definition.isModule, hde.kind]
    exact hmodule
  rw [← hde.name]
  exact name_of_lookupAttribute hes he hmodule'

/-- A callee that refers to a definition is found among its usages, and the scope around it is found to be
that of the callee. -/
theorem Index.Reached.usage_of_refersTo [SoundParser] {y z : Index} (hy : y.Reached files) (hz : z.Reached files)
    (hyz : z.searchPath = y.searchPath) {path : Path} {o : Outline}
    (ho : outlineNow files y.searchPath path = .ok o) {n : NameRef} (h : o.IsCallee n) {paths : List Path}
    (hpath : path ∈ paths)
    (hread : ∀ p ∈ paths, (p == path) = true → ∃ o', outlineNow files y.searchPath p = .ok o')
    {d : Definition} (hmodule : d.isModule = false) (hmember : memberNow files y.searchPath d = false)
    (hown : ∀ p, d.path = some p → (p == path) = true → files.Same p path)
    (hfile : (d.path == some path) = true ∨ o.importsModule d.module = true)
    (hrefers : o.refersTo d false (d.path == some path) n = true) :
  ∃ us, (Index.answer files (.usages (.definition d) paths) y).1 = .ok us ∧
    ∃ u ∈ us, (u.position == ⟨some path, n.start, n.stop⟩) = true ∧
      ∃ e, (Index.answer files (.enclosing u) z).1 = .ok e ∧
        ∃ e', o.definition? n.scope = some e' ∧ (e == e') = true
  := by
  have hopath := path_of_outlineNow ho
  have hmem : o.usage d.name n.start n.stop ∈ o.usagesOf d (memberNow files y.searchPath d) := by
    rw [hmember]
    apply Outline.usage_mem_usagesOf h.name hmodule
    · rwa [hopath]
    · rwa [hopath]
  obtain ⟨us, hus, v, hv, hvalike⟩ := exists_usage_fresh ho hpath hread hown hmem
  obtain ⟨us', hus', halike⟩ := hy.answer_of_fresh (q := .usages (.definition d) paths) hus
  obtain ⟨u, hu, hualike⟩ : ∃ u ∈ us', u.Alike files v := exists_mem_of_forall₂ halike.flip hv
  have hu_here := hualike.trans hvalike.symm
  obtain ⟨p, hp, hsame⟩ := exists_of_optionRel hu_here.path
  rw [hopath] at hsame
  have hposition : u.start = n.start ∧ u.stop = n.stop := by
    rw [hu_here.symm.rest]
    exact ⟨rfl, rfl⟩
  obtain ⟨e, he, e', he', halike_e⟩ := enclosing_fresh ho hsame.symm h hp hposition.1
  rw [← hyz] at he
  obtain ⟨f, hf, halike_f⟩ := hz.answer_of_fresh (q := .enclosing u) he
  refine ⟨us', hus', u, hu, ?_, f, hf, e', he', (halike_f.trans halike_e.symm).beq⟩
  rw [CallPosition.beq_iff, Usage.position, hp]
  exact ⟨hsame.equal, hposition⟩

end CallGraph.Source
