import CallGraph.Proofs.Search.Indexed
import CallGraph.Proofs.Source.Bindings
import CallGraph.Search.Children
import CallGraph.Source.Grammar

/-!
# Callers found from what they call

A vertex that is shown at a call is a target of the call.  If the file of the call has a name for the target,
the call is found again: a search for usages of the target finds the callee, in the scope that the call stands
in, and this scope is among the parents of the vertex, at the very position at which the vertex is shown.
-/

namespace CallGraph

open Source

variable {files : FileTree} {searchPath : List Path}

/-- A vertex of a call site that has a definition shows this definition at the site. -/
theorem mem_siteVertices {site : CallSite} {targets : List Definition} {v : Vertex} {d : Definition}
    (hv : v ∈ siteVertices site targets) (hd : v.definition = some d) :
  v.element.path = d.path ∧ v.element.start = d.start ∧ v.element.callPosition = site.position
  := by
  have htargets (index : Nat) (seen : List (String × CallPosition)) (targets : List Definition)
      (hv : v ∈ targetVertices site index seen targets) : ∃ index target, v = targetVertex site index target := by
    induction targets generalizing index seen with
    | nil => cases hv
    | cons target rest ih =>
      unfold targetVertices at hv
      split at hv
      · exact ih _ _ hv
      · dsimp only at hv
        split at hv
        · exact ih _ _ hv
        · rcases List.mem_cons.mp hv with rfl | hv
          · exact ⟨index, target, rfl⟩
          · exact ih _ _ hv
  unfold siteVertices at hv
  split at hv
  · rw [List.mem_singleton] at hv
    subst hv
    cases hd
  · obtain ⟨index, target, rfl⟩ := htargets 0 [] targets hv
    cases hd
    exact ⟨rfl, rfl, rfl⟩

/-- A callee does not stand where a function or class that is seen from it has its name. -/
theorem start_ne_of_sees {o : Outline} (ho : o.IsRegular) (hdistinct : o.IsDistinct) {n : NameRef} (h : o.IsCallee n)
    {scope : Nat} {name : String} {d : Definition} (hsees : o.Sees scope name d) :
  d.start ≠ n.start
  := by
  obtain ⟨e, he, hde⟩ := hsees
  obtain ⟨i, s, parent, hs, hparent, _, rfl⟩ := Outline.exists_scope_of_visible he
  obtain ⟨_, _, _, _, hstart, _⟩ := Definition.beq_iff.mp hde
  intro heq
  cases i with
  | zero =>
    obtain ⟨file, hfile, _, hroot⟩ := ho.root
    rw [hs] at hfile
    cases hfile
    rw [hparent] at hroot
    cases hroot
  | succ i =>
    obtain ⟨n', hn', hplace, hcontext⟩ := ho.introduced i s hs
    have hsame : n'.start = n.start := hplace.trans (hstart.symm.trans heq)
    have hfound := hdistinct.nameAt hn'
    rw [hsame, hdistinct.nameAt h.name] at hfound
    cases hfound
    exact h.notDefinition hcontext

/-- The site of a callee behind a dot is at the name behind it. -/
theorem Source.Findings.siteOf_attribute {source : List Char} {scope : Nat} {whole extent : Extent} {parts : Parts}
    {name : String} {object : Source.Tree} (hname : parts.find? .attribute = some (.identifier name extent))
    (hobject : parts.find? .object = some object) :
  siteOf source scope (.node .attribute whole parts) =
    ⟨scope, name, some (object.textIn source), .child, extent.start.location, extent.stop.location⟩
  := by
  rw [siteOf, Source.Tree.anchor, hname, hobject]
  rfl

namespace Source.Outline

/-- A callee calls a definition by a name that the file at a path has for it: the definition is of this very
file or of another one, the name refers to it there, and it does not stand where the callee stands. -/
structure Calls (o : Outline) (files : FileTree) (path : Path) (n : NameRef) (d : Definition) : Prop where
  place : d.path.isSome = true
  own : ∀ p, d.path = some p → (p == path) = true → files.Same p path
  file : (d.path == some path) = true ∨ o.importsModule d.module = true
  refers : o.refersTo d false (d.path == some path) n = true
  apart : (d.path == some path) = true → d.start ≠ n.start

variable {o : Outline} {path : Path} {n : NameRef} {d : Definition}

/-- A definition of another file is not of this file under another spelling of its path. -/
theorem same_of_other (hother : ∃ p, d.path = some p ∧ (p == path) = false) :
  ∀ p, d.path = some p → (p == path) = true → files.Same p path
  := by
  obtain ⟨p, hp, hother⟩ := hother
  intro q hq hequal
  rw [hp] at hq
  cases hq
  rw [hequal] at hother
  cases hother

/-- A plain callee calls a definition of another file that is imported under its name. -/
theorem IsCallee.calls_of_importsAs (h : o.IsCallee n) (hqualifier : n.qualifier = none)
    (hother : ∃ p, d.path = some p ∧ (p == path) = false) (himports : o.ImportsAs n.name d) :
  o.Calls files path n d
  := by
  obtain ⟨p, hp, hpath⟩ := hother
  have hapart : (d.path == some path) = false := by
    rw [hp]
    exact hpath
  constructor
  case place => rw [hp]; rfl
  case own => exact same_of_other ⟨p, hp, hpath⟩
  case file => exact .inr (importsModule_of_importsAs himports)
  case refers =>
    rw [hapart]
    exact h.refersTo_imported hqualifier himports
  case apart =>
    rw [hapart]
    rintro ⟨⟩

/-- What is shown at a callee is not defined where the scope around the callee is shown. -/
theorem Calls.not_isDefinedAt (h : o.Calls files path n d) {ds : List Definition} {v : Vertex}
    (hv : v ∈ siteVertices (Survey.callSiteOf path n.site) ds) (hvd : v.definition = some d) {e : Definition} :
  v.isDefinedAt (Vertex.ofDefinition .parent ⟨some path, n.start, n.stop⟩ e).element = false
  := by
  obtain ⟨hpath, hstart, -⟩ := mem_siteVertices hv hvd
  rw [Vertex.isDefinedAt, hpath, hstart]
  cases hequal : d.path == some path with
  | true =>
    have hapart : (n.start == d.start) = false := by
      rw [beq_eq_false_iff_ne]
      exact (h.apart hequal).symm
    simp [Vertex.ofDefinition, Definition.toElement, hapart]
  | false =>
    have hapart : (some path == d.path) = false := by
      rw [BEq.comm]
      exact hequal
    simp [Vertex.ofDefinition, Definition.toElement, hapart]

end Source.Outline

section Parsed

variable [Parser] [SoundParser]

/-- The scope around all usages found at the place of a callee is that of the callee. -/
theorem enclosesAt_of_isCallee {y : Index} (hy : y.Reached files) {path : Path} {o : Outline}
    (ho : outlineNow files y.searchPath path = .ok o) {n : NameRef} (h : o.IsCallee n) {e : Definition}
    (he : o.definition? n.scope = some e) {d : Definition} {paths : List Path} {us : List Usage}
    (hus : (Index.answer files (.usages (.definition d) paths) y).1 = .ok us) :
  Finding.EnclosesAt files y.searchPath us ⟨some path, n.start, n.stop⟩ e
  := by
  intro u hu hposition
  obtain ⟨p, o', hp, ho'⟩ := hy.readable_of_usage hus hu
  obtain ⟨hequal, hstart, _⟩ := CallPosition.beq_iff.mp hposition
  rw [Usage.position, hp] at hequal
  have hsame : files.Same path p := (same_of_readable hequal ho' ho).symm
  obtain ⟨e', he', e'', he'', halike⟩ := enclosing_fresh ho hsame h hp hstart
  rw [he] at he''
  cases he''
  exact ⟨e', he', halike.symm.beq⟩

/-- The scope of a callee that refers to a definition is among the parents of a vertex that shows the
definition at the callee. -/
theorem exists_parent_of_refersTo {w : Workspace Index} {token : Token}
    (hw : w.Indexes files searchPath token) {path : Path} {o : Outline}
    (ho : outlineNow files searchPath path = .ok o) {n : NameRef} (h : o.IsCallee n)
    (hpath : path ∈ w.scope.files)
    (hread : ∀ p ∈ w.scope.files, (p == path) = true → ∃ o', outlineNow files searchPath p = .ok o')
    {d : Definition} (hplace : d.path.isSome = true) (hmodule : d.isModule = false)
    (hmember : memberNow files searchPath d = false)
    (hown : ∀ p, d.path = some p → (p == path) = true → files.Same p path)
    (hfile : (d.path == some path) = true ∨ o.importsModule d.module = true)
    (hrefers : o.refersTo d false (d.path == some path) n = true) {v : Vertex} (hv : v.definition = some d)
    {e : Definition} (he : o.definition? n.scope = some e)
    (hother : v.isDefinedAt (Vertex.ofDefinition .parent ⟨some path, n.start, n.stop⟩ e).element = false) :
  ∃ ps, (w.run (Finding.parents v token).run).1 = .ok ps ∧
    ∃ p ∈ ps, Finding.ShowsParent p e ⟨some path, n.start, n.stop⟩
  := by
  have hsnapshot (p : Path) : p ∈ w.scope.snapshot ↔ p ∈ w.scope.files := (List.mergeSort_perm _ _).mem_iff
  obtain ⟨hsearch⟩ : w.analysis.searchPath = searchPath ∧ True := ⟨hw.searchPath, trivial⟩
  subst hsearch
  obtain ⟨us, hus, u, hu, hposition, _⟩ := hw.analysis.usage_of_refersTo hw.analysis rfl ho h
    ((hsnapshot path).mpr hpath) (fun p hp => hread p ((hsnapshot p).mp hp)) hmodule hmember hown hfile hrefers
  exact Finding.run_parents hw hv hplace hus ⟨u, hu, hposition⟩
    (enclosesAt_of_isCallee hw.analysis ho h he hus) hother

/-- A plain callee calls a function or class that is seen from it. -/
theorem Source.Index.Reached.calls_of_sees {x : Index} (hx : x.Reached files) {path : Path} {o : Outline}
    (ho : outlineNow files x.searchPath path = .ok o) {n : NameRef} (hn : o.IsCallee n)
    (hqualifier : n.qualifier = none) {ds : List Definition}
    (hds : (Index.answer files (.targets (Survey.callSiteOf path n.site)) x).1 = .ok ds) {d : Definition}
    (hd : d ∈ ds) (hsees : o.Sees n.scope n.name d) :
  o.Calls files path n d
  := by
  obtain ⟨hname, p, hp, hsame⟩ := hx.target_of_sees ho hqualifier hds hd hsees
  have hequal : (d.path == some path) = true := by
    rw [hp]
    exact hsame.equal
  constructor
  case place => rw [hp]; rfl
  case own =>
    intro q hq _
    rw [hp] at hq
    cases hq
    exact hsame
  case file => exact .inl hequal
  case refers =>
    rw [hequal]
    exact hn.refersTo_own hqualifier hname.symm
  case apart =>
    exact fun _ => start_ne_of_sees (isRegular_of_outlineNow ho) (isDistinct_of_outlineNow ho) hn hsees

/-- What a plain call shows, shows the call.  Let a target of a call or decorator with a plain name be a
function or class that does not stand directly in a class, and be seen in the file of the call from its
scope, or imported there from another file.  Then a search for usages of the target finds the callee, the
scope around it is the call's own, and a vertex that shows the target at the call has this scope among its
parents, at the position of the call. -/
theorem Index.Reached.shows_plainCall {x y z : Index} (hx : x.Reached files) (hy : y.Reached files)
    (hz : z.Reached files) (hxy : y.searchPath = x.searchPath) (hxz : z.searchPath = x.searchPath)
    {path : Path} {source : String} (hsource : textNow files path = some source) {o : Outline}
    (ho : outlineNow files x.searchPath path = .ok o) {name : String} {extent : Extent}
    (hcallee : Source.Tree.identifier name extent ∈ (Parser.tree source.toList).callees) {paths : List Path}
    (hpath : path ∈ paths)
    (hread : ∀ p ∈ paths, (p == path) = true → ∃ o', outlineNow files x.searchPath p = .ok o') :
  ∃ s e, s ∈ o.sites ∧ (o.nameAt s.start).map (·.scope) = some s.scope ∧ o.definition? s.scope = some e ∧
    s = ⟨s.scope, name, none, .child, extent.start.location, extent.stop.location⟩ ∧
    ∀ ds, (Index.answer files (.targets (Survey.callSiteOf path s)) x).1 = .ok ds →
      ∀ d ∈ ds, d.isModule = false → memberNow files x.searchPath d = false →
        (o.Sees s.scope name d ∨ (∃ p, d.path = some p ∧ (p == path) = false) ∧ o.ImportsAs name d) →
        (∃ us, (Index.answer files (.usages (.definition d) paths) y).1 = .ok us ∧
          ∃ u ∈ us, (u.position == ⟨some path, s.start, s.stop⟩) = true ∧
            ∃ e', (Index.answer files (.enclosing u) z).1 = .ok e' ∧ (e' == e) = true) ∧
        ∀ (w : Workspace Index) (token : Token), w.Indexes files x.searchPath token → w.scope.files = paths →
          ∀ v ∈ siteVertices (Survey.callSiteOf path s) ds, v.definition = some d →
            ∃ ps, (w.run (Finding.parents v token).run).1 = .ok ps ∧
              ∃ p ∈ ps, Finding.ShowsParent p e v.element.callPosition
  := by
  obtain ⟨n, hn, hsite⟩ := exists_isCallee hsource ho hcallee trivial
  obtain ⟨_, rfl, hqualifier, _, hstart, hstop⟩ := Site.mk.inj hsite
  have hregular := isRegular_of_outlineNow ho
  have hdistinct := isDistinct_of_outlineNow ho
  have hscope := hregular.name n hn.name
  obtain ⟨e, he⟩ : ∃ e, o.definition? n.scope = some e :=
    ⟨_, by rw [Outline.definition?, List.getElem?_eq_getElem hscope, Option.map_some]⟩
  refine ⟨n.site, e, hn.site, congrArg (Option.map NameRef.scope) (hdistinct.nameAt hn.name), he, hsite, ?_⟩
  intro ds hds d hd hmodule hmember hfound
  -- Either way the callee refers to the target in its file, and the target is not where the callee is.
  have hcalls : o.Calls files path n d := by
    rcases hfound with hsees | ⟨hother, himports⟩
    · exact hx.calls_of_sees ho hn hqualifier hds hd hsees
    · exact hn.calls_of_importsAs hqualifier hother himports
  constructor
  · rw [← hxy] at ho hmember
    obtain ⟨us, hus, u, hu, hposition, e', he', e'', he'', hequal⟩ := hy.usage_of_refersTo hz
      (hxz.trans hxy.symm) ho hn hpath (hxy ▸ hread) hmodule hmember hcalls.own hcalls.file hcalls.refers
    rw [he] at he''
    cases he''
    exact ⟨us, hus, u, hu, hposition, e', he', hequal⟩
  · rintro w token hw rfl v hv hvd
    rw [(mem_siteVertices hv hvd).2.2]
    exact exists_parent_of_refersTo hw ho hn hpath hread hcalls.place hmodule hmember hcalls.own hcalls.file
      hcalls.refers hvd he (hcalls.not_isDefinedAt hv hvd)

/-- A call through a name of a module is found from the target.  Let a target of a call or decorator behind a
dot be a function or class of another file that does not stand directly in a class, and let what stands before
the dot be a name that the file of the call has for the target's module as a whole.  Then a search for usages
of the target finds one at the callee. -/
theorem Index.Reached.shows_qualifiedCall {x y : Index} (hx : x.Reached files) (hy : y.Reached files)
    (hxy : y.searchPath = x.searchPath) {path : Path} {source : String}
    (hsource : textNow files path = some source) {o : Outline} (ho : outlineNow files x.searchPath path = .ok o)
    {whole extent : Extent} {parts : Parts}
    (hcallee : Source.Tree.node .attribute whole parts ∈ (Parser.tree source.toList).callees) {name : String}
    {object : Source.Tree} (hname : parts.find? .attribute = some (.identifier name extent))
    (hobject : parts.find? .object = some object) {paths : List Path} (hpath : path ∈ paths)
    (hread : ∀ p ∈ paths, (p == path) = true → ∃ o', outlineNow files x.searchPath p = .ok o') :
  ∃ s ∈ o.sites,
    s = ⟨s.scope, name, some (object.textIn source.toList), .child, extent.start.location, extent.stop.location⟩ ∧
    ∀ ds, (Index.answer files (.targets (Survey.callSiteOf path s)) x).1 = .ok ds →
      ∀ d ∈ ds, d.isModule = false → memberNow files x.searchPath d = false →
        (∃ p, d.path = some p ∧ (p == path) = false) →
        o.NamesModule (object.textIn source.toList) d.module →
        ∃ us, (Index.answer files (.usages (.definition d) paths) y).1 = .ok us ∧
          ∃ u ∈ us, (u.position == ⟨some path, s.start, s.stop⟩) = true
  := by
  obtain ⟨n, hn, hsite⟩ := exists_isCallee hsource ho hcallee trivial
  rw [Findings.siteOf_attribute hname hobject] at hsite
  obtain ⟨_, rfl, hqualifier, _, hstart, hstop⟩ := Site.mk.inj hsite
  refine ⟨n.site, hn.site, hsite, ?_⟩
  intro ds hds d hd hmodule hmember hother hnames
  have hsame := hx.name_of_target ho hqualifier hds hd hmodule
  have hown : ∀ p, d.path = some p → (p == path) = true → files.Same p path := Outline.same_of_other hother
  rw [← hxy] at ho hmember
  obtain ⟨us, hus, u, hu, hposition, _⟩ := hy.usage_of_refersTo hy rfl ho hn hpath (hxy ▸ hread) hmodule
    hmember hown (.inr (Outline.importsModule_of_namesModule hnames))
    (hn.refersTo_qualified hqualifier hsame.symm hnames _)
  exact ⟨us, hus, u, hu, hposition⟩

end Parsed

/-! ### Calls into a package -/

section Packaged

open scoped Source.Grammar

/-- Calls of a function of a package's module, by its name and through the module. -/
def importingText : String := "from a import b\nfrom a.b import f\nb.f()\nf()\n"

/-- A call of the same function through the package, which alone is imported. -/
def reachingText : String := "import a\na.b.f()\n"

/-- A package with a module in which a function stands, and files with these texts. -/
def packaged : FileTree :=
  { entries := [(["tmp"], .directory), (["tmp", "w"], .directory), (["tmp", "w", "a"], .directory),
      (["tmp", "w", "a", "__init__.py"], .file .empty 0),
      (["tmp", "w", "a", "b.py"], .file "def f():\n    pass\n".toUTF8 0),
      (["tmp", "w", "c.py"], .file reachingText.toUTF8 0), (["tmp", "w", "e.py"], .file importingText.toUTF8 0)] }

def importingOutline : Outline :=
  .ofSource ⟨"/tmp/w/e.py"⟩ "e" importingText

def reachingOutline : Outline :=
  .ofSource ⟨"/tmp/w/c.py"⟩ "c" reachingText

/-- The function of the package's module. -/
def packagedFunction : Definition :=
  ⟨"f", Kind.functionKind, "a.b", some ⟨"/tmp/w/a/b.py"⟩, .known 1 4, .known 1 5⟩

/-- Whether a look-up finds the function and nothing else. -/
def findsFunction (r : Except ProviderError (List Definition)) : Bool :=
  match r with
  | .ok [d] =>
    d.name == packagedFunction.name && d.kind == packagedFunction.kind && d.module == packagedFunction.module &&
      d.path.map (·.spelling) == packagedFunction.path.map (·.spelling) && d.start == packagedFunction.start &&
      d.stop == packagedFunction.stop
  | _ => false

/-- The definitions of the function's name in the package's module as it is now. -/
def packagedDefinitions : Except ProviderError (List Definition) :=
  (outlineNow packaged [⟨"/tmp/w"⟩] ⟨"/tmp/w/a/b.py"⟩).map (·.definitionsNamed 0 "f")

/-- The name of an attribute with its extent, and the text before the dot. -/
def Source.Tree.attribute? (source : List Char) : Source.Tree → Option (Piece × String)
  | .node .attribute _ parts => do
    let (.identifier name extent) ← parts.find? .attribute | none
    let object ← parts.find? .object
    some ((name, extent), object.textIn source)
  | _ => none

theorem Source.Tree.exists_of_attribute? {source : List Char} {trees : List Source.Tree} {name qualifier : String}
    {extent : Extent} (h : ((name, extent), qualifier) ∈ trees.filterMap (attribute? source)) :
  ∃ whole parts object, Source.Tree.node .attribute whole parts ∈ trees ∧
    parts.find? .attribute = some (.identifier name extent) ∧ parts.find? .object = some object ∧
    object.textIn source = qualifier
  := by
  obtain ⟨t, ht, hattribute⟩ := List.mem_filterMap.mp h
  unfold attribute? at hattribute
  split at hattribute
  · rename_i whole parts
    obtain ⟨found, hfound, hattribute⟩ := Option.bind_eq_some_iff.mp hattribute
    split at hattribute
    · obtain ⟨object, hobject, hattribute⟩ := Option.bind_eq_some_iff.mp hattribute
      cases hattribute
      exact ⟨whole, parts, object, ht, hfound, hobject, rfl⟩
    · cases hattribute
  · cases hattribute

/-- What the files come to: their texts, the names of their modules, and the function in its module. -/
theorem packaged_evaluates :
  (textNow packaged ⟨"/tmp/w/e.py"⟩ = some importingText ∧ moduleNameOf packaged [⟨"/tmp/w"⟩] ⟨"/tmp/w/e.py"⟩ = "e") ∧
  (textNow packaged ⟨"/tmp/w/c.py"⟩ = some reachingText ∧ moduleNameOf packaged [⟨"/tmp/w"⟩] ⟨"/tmp/w/c.py"⟩ = "c") ∧
  memberNow packaged [⟨"/tmp/w"⟩] packagedFunction = false ∧ findsFunction packagedDefinitions = true
  := by
  decide +kernel

/-- Where the calls stand in the trees, and that everything stands right in the files. -/
theorem calls_evaluate :
  (("f", ⟨⟨4, 0, 40⟩, ⟨4, 1, 41⟩⟩) ∈ (Parser.tree importingText.toList).callees.filterMap Source.Tree.plain? ∧
    (("f", ⟨⟨3, 2, 36⟩, ⟨3, 3, 37⟩⟩), "b") ∈
      (Parser.tree importingText.toList).callees.filterMap (Source.Tree.attribute? importingText.toList) ∧
    ∀ s ∈ ((Parser.tree importingText.toList).visit ⟨importingText.toList, "e", false⟩ {} {}).sites, s.scope = 0) ∧
  (("f", ⟨⟨2, 4, 13⟩, ⟨2, 5, 14⟩⟩), "a.b") ∈
    (Parser.tree reachingText.toList).callees.filterMap (Source.Tree.attribute? reachingText.toList) ∧
  ∀ s ∈ ((Parser.tree reachingText.toList).visit ⟨reachingText.toList, "c", false⟩ {} {}).sites, s.scope = 0
  := by
  decide +kernel

theorem outlineNow_importing :
  outlineNow packaged [⟨"/tmp/w"⟩] ⟨"/tmp/w/e.py"⟩ = .ok importingOutline
  := by
  obtain ⟨htext, hmodule⟩ := packaged_evaluates.1
  rw [outlineNow_of_text htext, hmodule]
  rfl

theorem outlineNow_reaching :
  outlineNow packaged [⟨"/tmp/w"⟩] ⟨"/tmp/w/c.py"⟩ = .ok reachingOutline
  := by
  obtain ⟨htext, hmodule⟩ := packaged_evaluates.2.1
  rw [outlineNow_of_text htext, hmodule]
  rfl

theorem eq_of_findsFunction {r : Except ProviderError (List Definition)} (h : findsFunction r = true) :
  r = .ok [packagedFunction]
  := by
  unfold findsFunction at h
  split at h
  · rename_i d
    simp only [Bool.and_eq_true, beq_iff_eq] at h
    obtain ⟨⟨⟨⟨⟨hname, hkind⟩, hmodule⟩, hpath⟩, hstart⟩, hstop⟩ := h
    obtain ⟨name, kind, module, path, start, stop⟩ := d
    cases path with
    | none => cases hpath
    | some p =>
      cases p
      cases hname
      cases hkind
      cases hmodule
      cases hpath
      cases hstart
      cases hstop
      rfl
  · cases h

/-- The function stands at the top level of the package's module. -/
theorem mem_definitionsNamed_packaged :
  ∃ o, outlineNow packaged [⟨"/tmp/w"⟩] ⟨"/tmp/w/a/b.py"⟩ = .ok o ∧ packagedFunction ∈ o.definitionsNamed 0 "f"
  := by
  have hdefinitions := eq_of_findsFunction packaged_evaluates.2.2.2
  unfold packagedDefinitions at hdefinitions
  cases ho : outlineNow packaged [⟨"/tmp/w"⟩] ⟨"/tmp/w/a/b.py"⟩ with
  | error e =>
    rw [ho] at hdefinitions
    cases hdefinitions
  | ok o =>
    rw [ho] at hdefinitions
    refine ⟨o, rfl, ?_⟩
    rw [show o.definitionsNamed 0 "f" = [packagedFunction] from Except.ok.inj hdefinitions]
    exact List.mem_singleton_self _

/-- A call that stands for the function has it for its only target. -/
theorem exists_target_packaged {x : Index} (hx : x.Reached packaged) (hsearch : x.searchPath = [⟨"/tmp/w"⟩])
    {path : Path} {o : Outline} (ho : outlineNow packaged [⟨"/tmp/w"⟩] path = .ok o) {s : Site} (hs : s ∈ o.sites)
    (hrole : s.role = .child) (hscope : ∀ t ∈ o.sites, t.scope = 0)
    (hfinds : findsFunction ((fresh packaged [⟨"/tmp/w"⟩]).lookup o 0 s.qualifier s.name) = true) :
  ∃ d, (Index.answer packaged (.targets (Survey.callSiteOf path s)) x).1 = .ok [d] ∧
    packagedFunction.Alike packaged d
  := by
  have htargets := targets_fresh ho hrole
  rw [Outline.scopeAsked_eq hs fun t ht _ => hscope t ht, eq_of_findsFunction hfinds, ← hsearch] at htargets
  obtain ⟨ds, hds, halike⟩ := hx.answer_of_fresh (q := .targets (Survey.callSiteOf path s)) htargets
  obtain ⟨d, tail, hd, htail, rfl⟩ := List.forall₂_cons_right_iff.mp halike
  rw [List.forall₂_nil_right_iff] at htail
  subst htail
  exact ⟨d, hds, hd.symm⟩

theorem of_packagedFunction_alike {d : Definition} (h : packagedFunction.Alike packaged d) :
  d.isModule = false ∧ memberNow packaged [⟨"/tmp/w"⟩] d = false ∧
    ∃ p, d.path = some p ∧ (p == ⟨"/tmp/w/e.py"⟩) = false
  := by
  obtain ⟨p, hp, hsame⟩ := exists_of_optionRel h.symm.path
  refine ⟨?_, (memberNow_congr h).symm.trans packaged_evaluates.2.2.1, p, hp, ?_⟩
  · rw [Definition.isModule, h.kind]
    rfl
  · rw [BEq.congr_left hsame.equal]
    decide

theorem importing_plain :
  Source.Tree.identifier "f" ⟨⟨4, 0, 40⟩, ⟨4, 1, 41⟩⟩ ∈ (Parser.tree importingText.toList).callees
  :=
  Source.Tree.identifier_mem_of_plain calls_evaluate.1.1

theorem scope_importing :
  ∀ s ∈ importingOutline.sites, s.scope = 0
  :=
  fun s hs => calls_evaluate.1.2.2 s (Outline.mem_sites_ofTree.mp hs)

theorem scope_reaching :
  ∀ s ∈ reachingOutline.sites, s.scope = 0
  :=
  fun s hs => calls_evaluate.2.2 s (Outline.mem_sites_ofTree.mp hs)

/-- A target from another module is shown at its call. -/
theorem mem_siteVertices_of_module {site : CallSite} {d : Definition} (h : (d.module == Builtins.moduleName) = false) :
  targetVertex site 0 d ∈ siteVertices site [d]
  := by
  have hignored : Builtins.isIgnored d.module d.name = false := by
    rw [Builtins.isIgnored, h]
    rfl
  simp [siteVertices, targetVertices, targetVertex, Definition.toElement, hignored]

/-- A call of an imported function. -/
theorem Index.Reached.shows_plainCall_of_importing :
  ∃ x s d us, x.Reached packaged ∧ s ∈ importingOutline.sites ∧ s.start = .known 4 0 ∧
    (Index.answer packaged (.targets (Survey.callSiteOf ⟨"/tmp/w/e.py"⟩ s)) x).1 = .ok [d] ∧
    (d == packagedFunction) = true ∧
    (Index.answer packaged (.usages (.definition d) [⟨"/tmp/w/e.py"⟩]) x).1 = .ok us ∧
    (∃ u ∈ us, (u.position == ⟨some ⟨"/tmp/w/e.py"⟩, s.start, s.stop⟩) = true ∧
      ∃ e, (Index.answer packaged (.enclosing u) x).1 = .ok e ∧
        ∃ e', importingOutline.definition? 0 = some e' ∧ (e == e') = true) ∧
    ∃ (w : Workspace Index) (token : Token) (v : Vertex), w.Indexes packaged [⟨"/tmp/w"⟩] token ∧
      v ∈ siteVertices (Survey.callSiteOf ⟨"/tmp/w/e.py"⟩ s) [d] ∧
      ∃ e ps, (w.run (Finding.parents v token).run).1 = .ok ps ∧
        ∃ p ∈ ps, Finding.ShowsParent p e v.element.callPosition
  := by
  obtain ⟨x, hx, hsearch⟩ := Index.Reached.exists_of_searchPath packaged [⟨"/tmp/w"⟩]
  have ho : outlineNow packaged x.searchPath ⟨"/tmp/w/e.py"⟩ = .ok importingOutline :=
    hsearch ▸ outlineNow_importing
  obtain ⟨s, e, hs, -, he, hsite, hshows⟩ :=
    Index.Reached.shows_plainCall hx hx hx rfl rfl packaged_evaluates.1.1 ho importing_plain
      (List.mem_singleton_self _) (fun p hp _ => ⟨_, List.mem_singleton.mp hp ▸ ho⟩)
  obtain ⟨-, hname, hqualifier, hrole, hstart, -⟩ := Site.mk.inj hsite
  have hscope := scope_importing s hs
  obtain ⟨d, hd, halike⟩ := exists_target_packaged hx hsearch outlineNow_importing hs hrole scope_importing (by
    rw [hqualifier, hname]
    decide +kernel)
  obtain ⟨hmodule, hmember, hother⟩ := of_packagedFunction_alike halike
  rw [← hsearch] at hmember
  have himports : importingOutline.ImportsAs "f" d := by
    rw [Outline.ImportsAs, halike.module, halike.name]
    decide +kernel
  obtain ⟨⟨us, hus, u, hu, hposition, e', he', hequal⟩, hparents⟩ :=
    hshows [d] hd d (List.mem_singleton_self _) hmodule hmember (.inr ⟨hother, himports⟩)
  have hbuiltin : (d.module == Builtins.moduleName) = false := by
    rw [halike.module]
    decide
  rw [hscope] at he
  refine ⟨x, s, d, us, hx, hs, hstart, hd, halike.symm.beq, hus, ⟨u, hu, hposition, e', he', e, he, hequal⟩,
    { provider := Index.provider, analysis := x, files := packaged, config := {},
      scope := ⟨[⟨"/tmp/w/e.py"⟩]⟩ },
    .root 0, _, ⟨hx, rfl, rfl, hsearch, rfl⟩, mem_siteVertices_of_module hbuiltin, e, ?_⟩
  exact hparents _ (.root 0) ⟨hx, rfl, rfl, rfl, rfl⟩ rfl _ (mem_siteVertices_of_module hbuiltin) rfl

/-- A call through an imported module. -/
theorem Index.Reached.shows_qualifiedCall_of_importing :
  ∃ x s d us, x.Reached packaged ∧ s ∈ importingOutline.sites ∧ s.start = .known 3 2 ∧
    (Index.answer packaged (.targets (Survey.callSiteOf ⟨"/tmp/w/e.py"⟩ s)) x).1 = .ok [d] ∧
    (d == packagedFunction) = true ∧
    (Index.answer packaged (.usages (.definition d) [⟨"/tmp/w/e.py"⟩]) x).1 = .ok us ∧
    ∃ u ∈ us, (u.position == ⟨some ⟨"/tmp/w/e.py"⟩, s.start, s.stop⟩) = true
  := by
  obtain ⟨x, hx, hsearch⟩ := Index.Reached.exists_of_searchPath packaged [⟨"/tmp/w"⟩]
  have ho : outlineNow packaged x.searchPath ⟨"/tmp/w/e.py"⟩ = .ok importingOutline :=
    hsearch ▸ outlineNow_importing
  obtain ⟨whole, parts, object, hcallee, hfound, hobject, hb⟩ :=
    Source.Tree.exists_of_attribute? calls_evaluate.1.2.1
  obtain ⟨s, hs, hsite, hshows⟩ :=
    Index.Reached.shows_qualifiedCall hx hx rfl packaged_evaluates.1.1 ho hcallee hfound hobject
      (List.mem_singleton_self _) (fun p hp _ => ⟨_, List.mem_singleton.mp hp ▸ ho⟩)
  rw [hb] at hsite hshows
  obtain ⟨-, hname, hqualifier, hrole, hstart, -⟩ := Site.mk.inj hsite
  obtain ⟨d, hd, halike⟩ := exists_target_packaged hx hsearch outlineNow_importing hs hrole scope_importing (by
    rw [hqualifier, hname]
    decide +kernel)
  obtain ⟨hmodule, hmember, hother⟩ := of_packagedFunction_alike halike
  rw [← hsearch] at hmember
  have hnames : importingOutline.NamesModule "b" d.module := by
    rw [Outline.NamesModule, halike.module]
    decide +kernel
  obtain ⟨us, hus, husage⟩ :=
    hshows [d] hd d (List.mem_singleton_self _) hmodule hmember hother hnames
  exact ⟨x, s, d, us, hx, hs, hstart, hd, halike.symm.beq, hus, husage⟩

/-- A call through a package that leads to a function of one of its modules, which is not found to be used
there: the file does not import the module. -/
theorem Index.not_usage_reaching :
  ∃ x s d us, x.Reached packaged ∧ textNow packaged ⟨"/tmp/w/c.py"⟩ = some reachingText ∧
    outlineNow packaged [⟨"/tmp/w"⟩] ⟨"/tmp/w/c.py"⟩ = .ok reachingOutline ∧
    x.searchPath = [⟨"/tmp/w"⟩] ∧
    (∃ whole parts object, Source.Tree.node .attribute whole parts ∈ (Parser.tree reachingText.toList).callees ∧
      parts.find? .attribute = some (.identifier "f" ⟨⟨2, 4, 13⟩, ⟨2, 5, 14⟩⟩) ∧
      parts.find? .object = some object ∧ object.textIn reachingText.toList = "a.b") ∧
    (∃ i ∈ reachingOutline.imports, i.localName = "a") ∧
    (∃ o, outlineNow packaged [⟨"/tmp/w"⟩] ⟨"/tmp/w/a/b.py"⟩ = .ok o ∧
      packagedFunction ∈ o.definitionsNamed 0 "f") ∧
    s ∈ reachingOutline.sites ∧ s = ⟨0, "f", some "a.b", .child, .known 2 4, .known 2 5⟩ ∧
    (Index.answer packaged (.targets (Survey.callSiteOf ⟨"/tmp/w/c.py"⟩ s)) x).1 = .ok [d] ∧
    (d == packagedFunction) = true ∧
    (Index.answer packaged (.usages (.definition d) [⟨"/tmp/w/c.py"⟩]) x).1 = .ok us ∧
    ∀ u ∈ us, (u.position == ⟨some ⟨"/tmp/w/c.py"⟩, s.start, s.stop⟩) = false
  := by
  obtain ⟨x, hx, hsearch⟩ := Index.Reached.exists_of_searchPath packaged [⟨"/tmp/w"⟩]
  have htext := packaged_evaluates.2.1.1
  have ho : outlineNow packaged x.searchPath ⟨"/tmp/w/c.py"⟩ = .ok reachingOutline :=
    hsearch ▸ outlineNow_reaching
  obtain ⟨whole, parts, object, hcallee, hfound, hobject, hab⟩ :=
    Source.Tree.exists_of_attribute? calls_evaluate.2.1
  obtain ⟨n, hn, hsite⟩ := exists_isCallee htext ho hcallee trivial
  have hscope : n.scope = 0 := scope_reaching n.site hn.site
  rw [Findings.siteOf_attribute hfound hobject, hab, hscope] at hsite
  obtain ⟨-, hname, hqualifier, -, hstart, hstop⟩ := Site.mk.inj hsite
  obtain ⟨d, hd, halike⟩ := exists_target_packaged hx hsearch outlineNow_reaching hn.site rfl scope_reaching (by
    rw [show n.site.qualifier = _ from hqualifier, show n.site.name = _ from hname]
    decide +kernel)
  obtain ⟨us, hus, _⟩ := hx.answer_of_fresh (q := .usages (.definition d) [⟨"/tmp/w/c.py"⟩]) (usages_fresh d _)
  refine ⟨x, n.site, d, us, hx, htext, outlineNow_reaching, hsearch,
    ⟨whole, parts, object, hcallee, hfound, hobject, hab⟩, by decide +kernel, mem_definitionsNamed_packaged,
    hn.site, hsite, hd, halike.symm.beq, hus, ?_⟩
  intro u hu
  rw [← Bool.not_eq_true]
  intro hposition
  obtain ⟨hmodule, hmember, _⟩ := of_packagedFunction_alike halike
  have hrefers := hx.refersTo_of_usage ho hn hmodule hus hu hposition
  rw [hsearch, hmember, Outline.refersTo, if_neg hn.notImport, hqualifier] at hrefers
  have hnames : reachingOutline.namesOfModule d.module = [] := by
    rw [halike.module]
    decide +kernel
  rw [hnames] at hrefers
  simp at hrefers

end Packaged

end CallGraph
