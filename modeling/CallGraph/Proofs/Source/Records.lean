import CallGraph.Proofs.Source.Walk

/-!
# What a walk records

Nothing that a walk has recorded is lost.  The scopes that it records are functions and classes, each with
the name that was recorded for it, and every fact stands in a scope that was recorded.  For each call or
decorator whose callee is a name or an attribute there are a name and a site at the same place, in the same
scope and with the same qualifier.
-/

namespace CallGraph.Source

namespace Findings

/-- All that one walk has recorded, another one that goes on has recorded too. -/
structure Grows (f g : Findings) : Prop where
  scopes : f.scopes <:+ g.scopes
  names : f.names ⊆ g.names
  sites : f.sites ⊆ g.sites

theorem Grows.refl (f : Findings) :
  f.Grows f
  := by
  exact ⟨List.suffix_rfl, List.Subset.refl _, List.Subset.refl _⟩

theorem Grows.trans {f g h : Findings} (hfg : f.Grows g) (hgh : g.Grows h) :
  f.Grows h
  := by
  exact ⟨hfg.scopes.trans hgh.scopes, List.Subset.trans hfg.names hgh.names, List.Subset.trans hfg.sites hgh.sites⟩

theorem grows_addSite (f : Findings) (source : List Char) (scope : Nat) (callee : Tree) :
  f.Grows (f.addSite source scope callee)
  := by
  exact ⟨List.suffix_rfl, List.Subset.refl _, List.subset_cons_self _ _⟩

theorem grows_addImports (f : Findings) (source : List Char) (module : Option String) (parts : Parts) :
  f.Grows (f.addImports source module parts)
  := by
  obtain ⟨imports, h⟩ := f.addImports_eq source module parts
  rw [h]
  exact ⟨List.suffix_rfl, List.Subset.refl _, List.Subset.refl _⟩

theorem grows_record (f : Findings) (file : FileFacts) (scope : Nat) (construct : Construct) (parts : Parts) :
  f.Grows (f.record file scope construct parts)
  := by
  unfold record
  split
  · split
    · exact f.grows_addSite _ _ _
    · exact .refl f
  · split
    · split
      · exact .refl f
      · exact f.grows_addSite _ _ _
    · exact .refl f
  · exact f.grows_addImports _ _ _
  · split
    · exact f.grows_addImports _ _ _
    · exact .refl f
  · exact .refl f

theorem grows_addDefinition
    (f : Findings) (source : List Char) (scope : Nat) (kind : ScopeKind) (name : Tree) (whole : Extent) :
  f.Grows (f.addDefinition source scope kind name whole)
  := by
  exact ⟨List.suffix_cons _ _, List.subset_cons_self _ _, List.subset_cons_self _ _⟩

/-- Scopes have the names that were recorded for them, and all that was recorded stands in a scope: the
file, which has number 0, or one of those recorded, which have the numbers after it. -/
structure IsScoped (f : Findings) : Prop where
  kind : ∀ s ∈ f.scopes, s.kind ≠ .module
  named : ∀ place, f.scopesAt place ≤ f.namesAt place
  parent : ∀ s before, s :: before <:+ f.scopes → ∃ parent, s.parent = some parent ∧ parent ≤ before.length
  name : ∀ n ∈ f.names, n.scope ≤ f.scopes.length
  site : ∀ s ∈ f.sites, s.scope ≤ f.scopes.length

theorem isScoped_empty :
  ({} : Findings).IsScoped
  := by
  constructor <;> simp [scopesAt]

end Findings

namespace Findings

variable {f : Findings}

theorem IsScoped.addName (h : f.IsScoped) {p : Place} (hp : p.scope ≤ f.scopes.length) (name : String)
    (extent : Extent) :
  (f.addName p name extent).IsScoped
  := by
  constructor
  · exact h.kind
  · intro place
    have hnamed := h.named place
    simp only [Findings.addName, namesAt, scopesAt, List.countP_cons] at hnamed ⊢
    omega
  · exact h.parent
  · simpa [Findings.addName] using ⟨hp, h.name⟩
  · exact h.site

theorem IsScoped.addSite
    (h : f.IsScoped) (source : List Char) {scope : Nat} (hscope : scope ≤ f.scopes.length) (callee : Tree) :
  (f.addSite source scope callee).IsScoped
  := by
  constructor
  · exact h.kind
  · exact h.named
  · exact h.parent
  · exact h.name
  · simpa [Findings.addSite, siteOf] using ⟨hscope, h.site⟩

theorem IsScoped.addImports
    (h : f.IsScoped) (source : List Char) (module : Option String) (parts : Parts) :
  (f.addImports source module parts).IsScoped
  := by
  obtain ⟨imports, himports⟩ := f.addImports_eq source module parts
  rw [himports]
  exact ⟨h.kind, h.named, h.parent, h.name, h.site⟩

theorem IsScoped.record
    (h : f.IsScoped) (file : FileFacts) {scope : Nat} (hscope : scope ≤ f.scopes.length)
    (construct : Construct) (parts : Parts) :
  (f.record file scope construct parts).IsScoped
  := by
  unfold Findings.record
  split
  · split
    · exact h.addSite _ hscope _
    · exact h
  · split
    · split
      · exact h
      · exact h.addSite _ hscope _
    · exact h
  · exact h.addImports _ _ _
  · split
    · exact h.addImports _ _ _
    · exact h
  · exact h

theorem IsScoped.addDefinition
    (h : f.IsScoped) {scope : Nat} (hscope : scope ≤ f.scopes.length) {kind : ScopeKind}
    (hkind : kind ≠ .module) (source : List Char) (name : Tree) (whole : Extent) :
  (f.addDefinition source scope kind name whole).IsScoped
  := by
  constructor
  · simpa [Findings.addDefinition] using ⟨hkind, h.kind⟩
  · intro place
    have hnamed := h.named place
    simp only [Findings.addDefinition, namesAt, scopesAt, List.countP_cons] at hnamed ⊢
    omega
  · intro s before hs
    simp only [Findings.addDefinition, List.suffix_cons_iff, List.cons.injEq] at hs
    rcases hs with ⟨rfl, rfl⟩ | hs
    · exact ⟨scope, rfl, hscope⟩
    · exact h.parent s before hs
  · simp only [Findings.addDefinition, List.mem_cons, List.length_cons]
    rintro n (rfl | hn)
    · simp only
      omega
    · have hname := h.name n hn
      omega
  · simp only [Findings.addDefinition, List.mem_cons, List.length_cons]
    rintro s (rfl | hs)
    · simp only
      omega
    · have hsite := h.site s hs
      omega

end Findings

/-- A walk in a scope that was recorded keeps all that is recorded in scopes that were. -/
theorem Tree.isScoped_visit (file : FileFacts) (t : Tree) (p : Place) (f : Findings) :
  p.scope ≤ f.scopes.length → f.IsScoped →
    (t.visit file p f).IsScoped ∧ f.scopes.length ≤ (t.visit file p f).scopes.length
  := by
  apply Tree.visit_induction
    (T := fun _ p f g => p.scope ≤ f.scopes.length → f.IsScoped →
      g.IsScoped ∧ f.scopes.length ≤ g.scopes.length)
    (A := fun _ around f g => (∀ label, (around label).scope ≤ f.scopes.length) → f.IsScoped →
      g.IsScoped ∧ f.scopes.length ≤ g.scopes.length)
    (D := fun _ p inner f g => p.scope ≤ f.scopes.length → inner ≤ f.scopes.length → f.IsScoped →
      g.IsScoped ∧ f.scopes.length ≤ g.scopes.length)
  case identifier =>
    intro text extent p f hp h
    exact ⟨h.addName hp text extent, Nat.le_refl _⟩
  case token =>
    intro named text extent p f _ h
    exact ⟨h, Nat.le_refl _⟩
  case node =>
    intro construct extent parts p f g _ hparts hp h
    obtain ⟨sites, imports, hrecord⟩ := f.record_eq file p.scope construct parts
    have hscopes : (f.record file p.scope construct parts).scopes = f.scopes := by rw [hrecord]
    rw [← hscopes]
    apply hparts
    · intro label
      rw [hscopes]
      exact hp
    · exact h.record file hp construct parts
  case definition =>
    intro construct extent parts kind name p f g hopens _ hparts hp h
    have hkind : kind ≠ .module := by
      cases construct <;> cases hopens <;> simp
    have hadd := h.addDefinition hp hkind file.source name extent
    obtain ⟨hg, hlength⟩ := hparts (Nat.le_succ_of_le hp) (Nat.le_refl _) hadd
    exact ⟨hg, Nat.le_of_succ_le hlength⟩
  case unnamed =>
    intro construct extent parts kind p f _ _ _ h
    exact ⟨h, Nat.le_refl _⟩
  case nil =>
    intro around f _ h
    exact ⟨h, Nat.le_refl _⟩
  case cons =>
    intro label tree rest around f g h htree hrest haround hf
    obtain ⟨hg, hlength⟩ := htree (haround label) hf
    obtain ⟨hh, hlength'⟩ := hrest (fun label => Nat.le_trans (haround label) hlength) hg
    exact ⟨hh, Nat.le_trans hlength hlength'⟩
  case definitionNil =>
    intro p inner f _ _ h
    exact ⟨h, Nat.le_refl _⟩
  case definitionName =>
    intro tree rest p inner f g h
    exact h
  case definitionCons =>
    intro label tree rest p inner f g h _ htree hrest hp hinner hf
    have hplace : (p.ofDefinition inner label).scope ≤ f.scopes.length := by
      unfold Place.ofDefinition
      split
      · exact hinner
      · exact hp
    obtain ⟨hg, hlength⟩ := htree hplace hf
    obtain ⟨hh, hlength'⟩ := hrest (Nat.le_trans hp hlength) (Nat.le_trans hinner hlength) hg
    exact ⟨hh, Nat.le_trans hlength hlength'⟩

/-- The name of each scope that was recorded was recorded at its place, as the name of a definition. -/
def Findings.Introduces (f : Findings) : Prop :=
  ∀ s ∈ f.scopes, ∃ n ∈ f.names, n.start = s.start ∧ n.context = .definition

theorem Findings.Introduces.of_scopes {f g : Findings} (h : f.Introduces) (hscopes : g.scopes = f.scopes)
    (hnames : f.names ⊆ g.names) :
  g.Introduces
  := by
  intro s hs
  obtain ⟨n, hn, hfields⟩ := h s (hscopes ▸ hs)
  exact ⟨n, hnames hn, hfields⟩

/-- The scopes that a walk records are introduced by their names. -/
theorem Tree.introduces_visit (file : FileFacts) (t : Tree) (p : Place) (f : Findings) (h : f.Introduces) :
  (t.visit file p f).Introduces
  := by
  revert h
  apply Tree.visit_induction
    (T := fun _ _ f g => f.Introduces → g.Introduces) (A := fun _ _ f g => f.Introduces → g.Introduces)
    (D := fun _ _ _ f g => f.Introduces → g.Introduces)
  case identifier =>
    intro text extent p f h
    exact h.of_scopes rfl (List.subset_cons_self _ _)
  case token =>
    intro named text extent p f h
    exact h
  case node =>
    intro construct extent parts p f g _ hparts h
    obtain ⟨sites, imports, hrecord⟩ := f.record_eq file p.scope construct parts
    exact hparts (h.of_scopes (by rw [hrecord]) (f.grows_record _ _ _ _).names)
  case definition =>
    intro construct extent parts kind name p f g _ _ hparts h
    apply hparts
    intro s hs
    rcases List.mem_cons.mp hs with rfl | hs
    · exact ⟨_, List.mem_cons_self, rfl, rfl⟩
    · obtain ⟨n, hn, hfields⟩ := h s hs
      exact ⟨n, List.mem_cons_of_mem _ hn, hfields⟩
  case unnamed =>
    intro construct extent parts kind p f _ _ h
    exact h
  case nil =>
    intro around f h
    exact h
  case cons =>
    intro label tree rest around f g h htree hrest hf
    exact hrest (htree hf)
  case definitionNil =>
    intro p inner f h
    exact h
  case definitionName =>
    intro tree rest p inner f g hrest
    exact hrest
  case definitionCons =>
    intro label tree rest p inner f g h _ htree hrest hf
    exact hrest (htree hf)

/-! ### Callees -/

/-- What is taken for the callee of a call or decorator: of a decorator, its first part that is no sign. -/
def Construct.callee? : Construct → Parts → Option Tree
  | .call, parts => parts.find? .callee
  | .decorator, parts => parts.firstNamed?
  | _, _ => none

mutual

/-- The callees of the calls and decorators in a tree. -/
def Tree.callees : Tree → List Tree
  | .identifier _ _ => []
  | .token _ _ _ => []
  | .node construct _ parts => (construct.callee? parts).toList ++ parts.callees

/-- The callees of the calls and decorators in some parts. -/
def Parts.callees : Parts → List Tree
  | .nil => []
  | .cons _ tree rest => tree.callees ++ rest.callees

end

/-- A tree that is a plain name or a name behind a dot. -/
def Tree.IsName : Tree → Prop
  | .identifier _ _ => True
  | .node .attribute _ _ => True
  | _ => False

/-- The site that goes with the name of a callee. -/
def NameRef.site (n : NameRef) : Site :=
  { scope := n.scope, name := n.name, qualifier := n.qualifier, role := .child, start := n.start, stop := n.stop }

/-- The occurrence of a name at a place. -/
def Place.nameRef (p : Place) (name : String) (extent : Extent) : NameRef :=
  { scope := p.scope, name, context := p.context
    qualifier := if p.construct = .attribute && p.label = .attribute then p.object else none
    start := extent.start.location, stop := extent.stop.location }

theorem Parts.mem_of_firstNamed? {parts : Parts} {tree : Tree} (h : parts.firstNamed? = some tree) :
  ∃ label, (label, tree) ∈ parts.toList
  := by
  induction parts using Parts.induction with
  | nil => cases h
  | cons label first rest ih =>
    rw [firstNamed?] at h
    split at h
    · cases h
      exact ⟨label, List.mem_cons_self⟩
    · obtain ⟨label', hmem⟩ := ih h
      exact ⟨label', List.mem_cons_of_mem _ hmem⟩

/-- The callee of a construct is one of its parts, which makes the construct a call or a decorator. -/
theorem Construct.mem_of_callee? {construct : Construct} {parts : Parts} {callee : Tree}
    (h : construct.callee? parts = some callee) :
  ∃ label, (label, callee) ∈ parts.toList ∧ (construct = .call ∧ label = .callee ∨ construct = .decorator)
  := by
  cases construct with
  | call => exact ⟨.callee, Parts.mem_of_find? h, .inl ⟨rfl, rfl⟩⟩
  | decorator =>
    obtain ⟨label, hmem⟩ := Parts.mem_of_firstNamed? h
    exact ⟨label, hmem, .inr rfl⟩
  | _ => cases h

namespace Findings

/-- A callee that is a name is recorded as a name and as a site, both at its anchor. -/
def Records (f : Findings) (source : List Char) (callee : Tree) : Prop :=
  callee.IsName → ∃ n ∈ f.names, n.site = siteOf source n.scope callee ∧ n.site ∈ f.sites ∧
    n.context ≠ .importName ∧ n.context ≠ .definition

/-- A name at a place, or directly in a construct there, is recorded as what it is there. -/
structure Names (f : Findings) (source : List Char) (p : Place) (t : Tree) : Prop where
  here : ∀ name extent, t = .identifier name extent → p.nameRef name extent ∈ f.names
  part : ∀ construct extent parts label name extent', t = .node construct extent parts → construct.opens = none →
    (label, .identifier name extent') ∈ parts.toList →
      (p.enter source construct parts label).nameRef name extent' ∈ f.names

variable {f g h : Findings} {source : List Char}

theorem Records.grow {callee : Tree} (hrecords : f.Records source callee) (hfg : f.Grows g) :
  g.Records source callee
  := by
  intro hname
  obtain ⟨n, hn, heq, hsite, hcontext⟩ := hrecords hname
  exact ⟨n, hfg.names hn, heq, hfg.sites hsite, hcontext⟩

theorem Names.grow {p : Place} {t : Tree} (hnames : f.Names source p t) (hfg : f.Grows g) :
  g.Names source p t
  := by
  constructor
  · intro name extent ht
    exact hfg.names (hnames.here name extent ht)
  · intro construct extent parts label name extent' ht hopens hmem
    exact hfg.names (hnames.part construct extent parts label name extent' ht hopens hmem)

/-- A plain name that is called is recorded as such. -/
theorem records_identifier
    {p : Place} (hplace : p.context = .call ∨ p.context = .decorator) (hconstruct : p.construct ≠ .attribute)
    {name : String} {extent : Extent} (hname : p.nameRef name extent ∈ g.names)
    (hsite : siteOf source p.scope (.identifier name extent) ∈ g.sites) :
  g.Records source (.identifier name extent)
  := by
  intro _
  have heq : (p.nameRef name extent).site = siteOf source p.scope (.identifier name extent) := by
    simp [Place.nameRef, NameRef.site, siteOf, hconstruct, Tree.anchor, Tree.lastLeaf, Tree.textIn, Tree.extent]
  refine ⟨_, hname, heq, by rwa [heq], ?_⟩
  rcases hplace with hcontext | hcontext <;> simp [Place.nameRef, hcontext]

/-- A name behind a dot that is called is recorded with what stands before the dot. -/
theorem records_attribute
    {p : Place} {extent : Extent} {parts : Parts} (hhasName : parts.hasName .attribute = true)
    (hnames : g.Names source p (.node .attribute extent parts))
    (hsite : siteOf source p.scope (.node .attribute extent parts) ∈ g.sites) :
  g.Records source (.node .attribute extent parts)
  := by
  intro _
  obtain ⟨name, extent', hfind, _⟩ := Parts.exists_find?_of_hasName hhasName
  have hname := hnames.part .attribute extent parts .attribute name extent' rfl rfl (Parts.mem_of_find? hfind)
  have heq : ((p.enter source .attribute parts .attribute).nameRef name extent').site
      = siteOf source p.scope (.node .attribute extent parts) := by
    simp [Place.nameRef, Place.enter, NameRef.site, siteOf, Tree.anchor, hfind, Tree.textIn, Tree.extent]
  refine ⟨_, hname, heq, by rwa [heq], ?_⟩
  simp only [Place.nameRef, Place.context, Place.enter]
  split <;> simp

theorem mem_sites_record
    (f : Findings) (file : FileFacts) (scope : Nat) {construct : Construct} {parts : Parts} {callee : Tree}
    (hcallee : construct.callee? parts = some callee) (hname : callee.IsName) :
  siteOf file.source scope callee ∈ (f.record file scope construct parts).sites
  := by
  cases construct with
  | call =>
    rw [Construct.callee?] at hcallee
    simp [record, hcallee, addSite]
  | decorator =>
    rw [Construct.callee?] at hcallee
    have hcall : callee.construct? ≠ some .call := by
      intro hcall
      cases callee with
      | node construct extent parts' =>
        cases hcall
        cases hname
      | _ => cases hcall
    simp [record, hcallee, hcall, addSite]
  | _ => cases hcallee

/-- Only calls and decorators add sites before their parts are walked. -/
theorem sites_record_of_ne
    (f : Findings) (file : FileFacts) (scope : Nat) {construct : Construct} (parts : Parts)
    (hcall : construct ≠ .call) (hdecorator : construct ≠ .decorator) :
  (f.record file scope construct parts).sites = f.sites
  := by
  unfold record
  split
  · contradiction
  · contradiction
  · obtain ⟨imports, h⟩ := f.addImports_eq file.source none parts
    rw [h]
  · split
    · obtain ⟨imports, h⟩ := f.addImports_eq file.source _ parts
      rw [h]
    · rfl
  · rfl

/-- Of a call or decorator, its callee's site is added, or nothing. -/
theorem record_callee
    (f : Findings) (file : FileFacts) (scope : Nat) {construct : Construct} {parts : Parts} {callee : Tree}
    (hcallee : construct.callee? parts = some callee) :
  f.record file scope construct parts = f.addSite file.source scope callee ∨
    f.record file scope construct parts = f
  := by
  cases construct with
  | call =>
    rw [Construct.callee?] at hcallee
    exact .inl (by simp [record, hcallee])
  | decorator =>
    rw [Construct.callee?] at hcallee
    by_cases hcall : callee.construct? = some .call
    · exact .inr (by simp [record, hcallee, hcall])
    · exact .inl (by simp [record, hcallee, hcall])
  | _ => cases hcallee

/-- The callee of a call or decorator is recorded when the construct and its parts are. -/
theorem records_callee
    {file : FileFacts} {p : Place} {construct : Construct} {parts : Parts} {callee : Tree}
    (hcallee : construct.callee? parts = some callee) (hnamed : AreNamed callee.constructs)
    (hgrows : (f.record file p.scope construct parts).Grows g)
    (hnames : ∀ part ∈ parts.toList, g.Names file.source (p.enter file.source construct parts part.1) part.2) :
  g.Records file.source callee
  := by
  intro hname
  have hsite := hgrows.sites (f.mem_sites_record file p.scope hcallee hname)
  obtain ⟨label, hmem, hconstruct⟩ := Construct.mem_of_callee? hcallee
  have hnames := hnames _ hmem
  cases callee with
  | identifier name extent =>
    refine records_identifier (p := p.enter file.source construct parts label) ?_ ?_
      (hnames.here name extent rfl) hsite hname
    · rcases hconstruct with ⟨rfl, rfl⟩ | rfl
      · exact .inl rfl
      · exact .inr rfl
    · rcases hconstruct with ⟨rfl, rfl⟩ | rfl <;> simp [Place.enter]
  | token => cases hname
  | node construct' extent parts' =>
    obtain rfl : construct' = .attribute := by
      cases construct' <;> first | rfl | cases hname
    exact records_attribute ((Tree.areNamed_node.mp hnamed).1 .attribute rfl) hnames hsite hname

/-! ### What walks of trees record -/

/-- A walk of a tree at a place keeps what was recorded, and records its names and callees. -/
structure Visits (f g : Findings) (source : List Char) (p : Place) (t : Tree) : Prop where
  grows : f.Grows g
  names : g.Names source p t
  callees : ∀ callee ∈ t.callees, g.Records source callee

/-- A walk of some parts, each at its place, does so. -/
structure VisitsParts (f g : Findings) (source : List Char) (around : Label → Place) (parts : Parts) : Prop where
  grows : f.Grows g
  names : ∀ part ∈ parts.toList, g.Names source (around part.1) part.2
  callees : ∀ callee ∈ parts.callees, g.Records source callee

theorem visits_identifier (f : Findings) (source : List Char) (p : Place) (text : String) (extent : Extent) :
  f.Visits (f.addName p text extent) source p (.identifier text extent)
  := by
  refine ⟨⟨List.suffix_rfl, List.subset_cons_self _ _, List.Subset.refl _⟩, ⟨?_, ?_⟩, by simp [Tree.callees]⟩
  · intro name extent' heq
    cases heq
    exact List.mem_cons_self
  · intro construct extent parts label name extent' heq
    cases heq

theorem visits_token (f : Findings) (source : List Char) (p : Place) (named : Bool) (text : String) (extent : Extent) :
  f.Visits f source p (.token named text extent)
  := by
  refine ⟨.refl f, ⟨?_, ?_⟩, by simp [Tree.callees]⟩
  · intro name extent' heq
    cases heq
  · intro construct extent parts label name extent' heq
    cases heq

theorem visits_node
    {file : FileFacts} {p : Place} {construct : Construct} {extent : Extent} {parts : Parts}
    (hnamed : AreNamed parts.constructs)
    (hparts : (f.record file p.scope construct parts).VisitsParts g file.source
      (p.enter file.source construct parts) parts) :
  f.Visits g file.source p (.node construct extent parts)
  := by
  refine ⟨(f.grows_record file p.scope construct parts).trans hparts.grows, ⟨?_, ?_⟩, ?_⟩
  · intro name extent' heq
    cases heq
  · intro construct' extent' parts' label name extent'' heq _ hmem
    cases heq
    exact (hparts.names _ hmem).here name extent'' rfl
  · intro callee hcallee
    rw [Tree.callees, List.mem_append, Option.mem_toList] at hcallee
    rcases hcallee with hcallee | hcallee
    · obtain ⟨label, hmem, _⟩ := Construct.mem_of_callee? hcallee
      exact records_callee hcallee (Parts.areNamed_of_mem hnamed hmem) hparts.grows hparts.names
    · exact hparts.callees callee hcallee

theorem visits_definition
    {file : FileFacts} {p : Place} {construct : Construct} {extent : Extent} {parts : Parts} {kind : ScopeKind}
    {name : Tree} (hopens : construct.opens = some kind)
    (hgrows : (f.addDefinition file.source p.scope kind name extent).Grows g)
    (hcallees : ∀ callee ∈ parts.callees, g.Records file.source callee) :
  f.Visits g file.source p (.node construct extent parts)
  := by
  refine ⟨(f.grows_addDefinition _ _ _ _ _).trans hgrows, ⟨?_, ?_⟩, ?_⟩
  · intro name extent' heq
    cases heq
  · intro construct' extent' parts' label name' extent'' heq hopens'
    cases heq
    rw [hopens'] at hopens
    cases hopens
  · have hnone : construct.callee? parts = none := by
      cases construct <;> first | rfl | cases hopens
    rwa [Tree.callees, hnone, Option.toList_none, List.nil_append]

theorem visitsParts_cons
    {around : Label → Place} {label : Label} {tree : Tree} {rest : Parts}
    (htree : f.Visits g source (around label) tree) (hrest : g.VisitsParts h source around rest) :
  f.VisitsParts h source around (.cons label tree rest)
  := by
  refine ⟨htree.grows.trans hrest.grows, ?_, ?_⟩
  · intro part hpart
    rcases List.mem_cons.mp hpart with rfl | hpart
    · exact htree.names.grow hrest.grows
    · exact hrest.names part hpart
  · intro callee hcallee
    rw [Parts.callees, List.mem_append] at hcallee
    rcases hcallee with hcallee | hcallee
    · exact (htree.callees callee hcallee).grow hrest.grows
    · exact hrest.callees callee hcallee

end Findings

/-- A walk of a tree in which definitions and attributes have names records the names and callees in it. -/
theorem Tree.visits_visit (file : FileFacts) (t : Tree) (p : Place) (f : Findings) :
  AreNamed t.constructs → f.Visits (t.visit file p f) file.source p t
  := by
  -- of the parts of a definition, only the callees matter
  apply Tree.visit_induction
    (T := fun t p f g => AreNamed t.constructs → f.Visits g file.source p t)
    (A := fun parts around f g => AreNamed parts.constructs → f.VisitsParts g file.source around parts)
    (D := fun parts _ _ f g => AreNamed parts.constructs →
      (∀ tree, (.name, tree) ∈ parts.toList → tree.callees = []) →
        f.Grows g ∧ ∀ callee ∈ parts.callees, g.Records file.source callee)
  case identifier => exact fun text extent p f _ => f.visits_identifier file.source p text extent
  case token => exact fun named text extent p f _ => f.visits_token file.source p named text extent
  case node =>
    intro construct extent parts p f g _ hparts hnamed
    obtain ⟨_, hnamed⟩ := areNamed_node.mp hnamed
    exact Findings.visits_node hnamed (hparts hnamed)
  case definition =>
    intro construct extent parts kind name p f g hopens _ hparts hnamed
    obtain ⟨hhasName, hnamed⟩ := areNamed_node.mp hnamed
    obtain ⟨text, extent', _, hnames⟩ :=
      Parts.exists_find?_of_hasName (hhasName .name (Construct.nameLabel?_of_opens hopens))
    obtain ⟨hgrows, hcallees⟩ := hparts hnamed fun tree htree => by rw [hnames tree htree, callees]
    exact Findings.visits_definition hopens hgrows hcallees
  case unnamed =>
    intro construct extent parts kind p f hopens hnone hnamed
    obtain ⟨text, extent', hfind, _⟩ := Parts.exists_find?_of_hasName
      ((areNamed_node.mp hnamed).1 .name (Construct.nameLabel?_of_opens hopens))
    cases hnone.symm.trans hfind
  case nil => exact fun around f _ => ⟨.refl f, by simp [Parts.toList], by simp [Parts.callees]⟩
  case cons =>
    intro label tree rest around f g h htree hrest hnamed
    obtain ⟨hnamed, hnamed'⟩ := Parts.areNamed_cons.mp hnamed
    exact Findings.visitsParts_cons (htree hnamed) (hrest hnamed')
  case definitionNil => exact fun p inner f _ _ => ⟨.refl f, by simp [Parts.callees]⟩
  case definitionName =>
    intro tree rest p inner f g hrest hnamed hnames
    obtain ⟨hgrows, hcallees⟩ := hrest (Parts.areNamed_cons.mp hnamed).2
      fun tree htree => hnames tree (List.mem_cons_of_mem _ htree)
    refine ⟨hgrows, ?_⟩
    rwa [Parts.callees, hnames tree List.mem_cons_self, List.nil_append]
  case definitionCons =>
    intro label tree rest p inner f g h _ htree hrest hnamed hnames
    obtain ⟨hnamed, hnamed'⟩ := Parts.areNamed_cons.mp hnamed
    have htree := htree hnamed
    obtain ⟨hgrows, hcallees⟩ := hrest hnamed' fun tree htree => hnames tree (List.mem_cons_of_mem _ htree)
    refine ⟨htree.grows.trans hgrows, ?_⟩
    intro callee hcallee
    rw [Parts.callees, List.mem_append] at hcallee
    rcases hcallee with hcallee | hcallee
    · exact (htree.callees callee hcallee).grow hgrows
    · exact hcallees callee hcallee

end CallGraph.Source
