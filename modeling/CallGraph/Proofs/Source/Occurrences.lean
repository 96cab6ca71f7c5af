import CallGraph.Proofs.Source.Outline
import CallGraph.Proofs.Source.Tree
import CallGraph.Source.Grammar
import Mathlib.Data.List.Perm.Basic

/-!
# Everything is recorded once

The names of an outline are the identifiers of the tree it was made from, each once and in the order in which
they stand there.  Its sites are those of the definitions, the calls and the decorators, one for each: a definition
has its site at its name, a call or decorator at the last leaf of its callee.  A decorator has none if its first
named part is a call, which that part is not if a line continuation stands before the call.  No two names and no two
sites start at the same place, so each is what is found at its place.
-/

namespace CallGraph.Source

/-! ### What there is to record -/

/-- Whether a construct has a site of its own: a definition, a call, or a decorator the first named part of which is
no call. -/
def Construct.isSited (construct : Construct) (parts : Parts) : Bool :=
  match construct with
  | .functionDefinition => true
  | .classDefinition => true
  | .call => true
  | .decorator => parts.firstNamed?.bind Tree.construct? != some .call
  | _ => false

/-- The tree that the site of a construct is at the end of: a definition's name, or a callee. -/
def Construct.sited? (construct : Construct) (parts : Parts) : Option (Role × Tree) :=
  if construct.opens.isSome then (parts.find? .name).map (.definition, ·)
  else (construct.callee? parts).map (.child, ·)

/-- The role and place of a construct's site, which is at the last leaf of a tree. -/
def Construct.site? (construct : Construct) (parts : Parts) : Option (Role × Occurrence) :=
  (construct.sited? parts).bind fun s => s.2.leaves.getLast?.map fun p => (s.1, occurrence p)

/-- The sites that the constructs in a list have, one for each that has one. -/
def sitesOf (constructs : List (Construct × Extent × Parts)) : List (Option (Role × Occurrence)) :=
  (constructs.filter fun c => c.1.isSited c.2.2).map fun c => c.1.site? c.2.2

@[simp]
theorem sitesOf_nil :
  sitesOf [] = []
  := by
  rfl

@[simp]
theorem sitesOf_append (xs ys : List (Construct × Extent × Parts)) :
  sitesOf (xs ++ ys) = sitesOf xs ++ sitesOf ys
  := by
  simp [sitesOf]

theorem sitesOf_cons (construct : Construct) (extent : Extent) (parts : Parts)
    (xs : List (Construct × Extent × Parts)) :
  sitesOf ((construct, extent, parts) :: xs)
    = (if construct.isSited parts then [construct.site? parts] else []) ++ sitesOf xs
  := by
  by_cases h : construct.isSited parts <;> simp [sitesOf, h]

/-- The role and the place of a recorded site. -/
def Site.occurrence (s : Site) : Option (Role × Occurrence) :=
  some (s.role, s.name, s.start, s.stop)

/-- An outline that has one name for each identifier of a tree and one site for each definition, call and other
decorator in it, both in the order of their places, by which they are found. -/
structure Outline.Records (o : Outline) (t : Tree) : Prop where
  names : o.names.map NameRef.occurrence = t.identifiers.map occurrence
  nameOrder : o.names.Pairwise fun n n' => n.start.before n'.start = true
  nameAt : ∀ n ∈ o.names, o.nameAt n.start = some n
  sites : (o.sites.map Site.occurrence).Perm (sitesOf t.constructs)
  siteOrder : o.sites.Pairwise fun s s' => s.start.before s'.start = true
  siteAt : ∀ s ∈ o.sites, o.siteAt s.start = some s

/-! ### Sites that are recorded -/

namespace Findings

/-- The site of a callee is added at its last leaf. -/
theorem sites_addSite
    (f : Findings) (source : List Char) (scope : Nat) {callee : Tree} (hcallee : callee.IsCallee)
    (horderly : callee.IsOrderly) :
  (f.addSite source scope callee).sites.map Site.occurrence
    = (callee.leaves.getLast?.map fun p => (Role.child, occurrence p)) :: f.sites.map Site.occurrence
  := by
  obtain ⟨p, qualifier, hlast, hsite⟩ := hcallee.exists_siteOf horderly source scope
  rw [addSite, hsite, hlast]
  rfl

/-- Before its parts are walked, a construct that is no definition adds its own site, if it has one. -/
theorem sites_record
    (f : Findings) (file : FileFacts) (scope : Nat) {construct : Construct} {extent : Extent} {parts : Parts}
    (hopens : construct.opens = none) (h : (Tree.node construct extent parts).IsOrderly) :
  (f.record file scope construct parts).sites.map Site.occurrence
    = (if construct.isSited parts then [construct.site? parts] else []) ++ f.sites.map Site.occurrence
  := by
  by_cases hconstruct : construct = .call ∨ construct = .decorator
  · obtain ⟨callee, hcallee, hcalleeIs⟩ := h.admits.exists_callee hconstruct
    obtain ⟨label, hmem, _⟩ := Construct.mem_of_callee? hcallee
    have hadded := f.sites_addSite file.source scope hcalleeIs (h.part hmem)
    have hsite : construct.site? parts = callee.leaves.getLast?.map fun p => (Role.child, occurrence p) := by
      simp [Construct.site?, Construct.sited?, hopens, hcallee]
    rcases hconstruct with rfl | rfl
    · rw [Construct.callee?] at hcallee
      simpa [record, Construct.isSited, hcallee, hsite] using hadded
    · rw [Construct.callee?] at hcallee
      by_cases hcall : callee.construct? = some .call
      · simp [record, Construct.isSited, hcallee, hcall]
      · simpa [record, Construct.isSited, hcallee, hcall, hsite] using hadded
  · obtain ⟨hcall, hdecorator⟩ := not_or.mp hconstruct
    have hsited : construct.isSited parts = false := by
      cases construct <;> first | rfl | contradiction
    rw [f.sites_record_of_ne file scope parts hcall hdecorator, hsited]
    rfl

end Findings

/-- A definition has its site at its name. -/
theorem Construct.site?_of_opens
    {construct : Construct} {parts : Parts} {kind : ScopeKind} {text : String} {extent : Extent}
    (hopens : construct.opens = some kind) (hname : parts.find? .name = some (.identifier text extent)) :
  (if construct.isSited parts then [construct.site? parts] else [])
    = [some (Role.definition, occurrence (text, extent))]
  := by
  cases construct <;> cases hopens <;> simp [isSited, site?, sited?, Construct.opens, hname, Tree.leaves]

/-- A walk of an orderly tree records each of its sites once more. -/
theorem Tree.count_sites_visit
    (file : FileFacts) (x : Option (Role × Occurrence)) (t : Tree) (p : Place) (f : Findings) :
  t.IsOrderly →
    ((t.visit file p f).sites.map Site.occurrence).count x
      = (f.sites.map Site.occurrence).count x + (sitesOf t.constructs).count x
  := by
  apply Tree.visit_induction
    (T := fun t _ f g => t.IsOrderly →
      (g.sites.map Site.occurrence).count x
        = (f.sites.map Site.occurrence).count x + (sitesOf t.constructs).count x)
    (A := fun parts _ f g => (∀ part ∈ parts.toList, part.2.IsOrderly) →
      (g.sites.map Site.occurrence).count x
        = (f.sites.map Site.occurrence).count x + (sitesOf parts.constructs).count x)
    (D := fun parts _ _ f g => (∀ part ∈ parts.toList, part.2.IsOrderly) →
      (∀ tree, (.name, tree) ∈ parts.toList → tree.constructs = []) →
        (g.sites.map Site.occurrence).count x
          = (f.sites.map Site.occurrence).count x + (sitesOf parts.constructs).count x)
  case identifier =>
    intro text extent p f _
    simp [Tree.constructs, Findings.addName]
  case token =>
    intro named text extent p f _
    simp [Tree.constructs]
  case node =>
    intro construct extent parts p f g hopens hparts h
    rw [hparts fun _ hpart => h.part hpart, f.sites_record file p.scope hopens h, Tree.constructs, sitesOf_cons,
      List.count_append, List.count_append]
    omega
  case definition =>
    intro construct extent parts kind name p f g hopens hname hparts h
    have hhasName := h.isSound.named _ List.mem_cons_self .name (Construct.nameLabel?_of_opens hopens)
    obtain ⟨text, extent', hfind, hnames⟩ := Parts.exists_find?_of_hasName hhasName
    cases hname.symm.trans hfind
    have hcount := hparts (fun _ hpart => h.part hpart) fun tree htree => by rw [hnames tree htree, constructs]
    rw [hcount, Tree.constructs, sitesOf_cons, Construct.site?_of_opens hopens hfind]
    simp only [Findings.addDefinition, List.map_cons, List.count_append, List.count_cons, List.count_nil,
      Site.occurrence, occurrence, Tree.textIn, Tree.extent]
    omega
  case unnamed =>
    intro construct extent parts kind p f hopens hnone h
    have hhasName := h.isSound.named _ List.mem_cons_self .name (Construct.nameLabel?_of_opens hopens)
    obtain ⟨text, extent', hfind, _⟩ := Parts.exists_find?_of_hasName hhasName
    cases hnone.symm.trans hfind
  case nil =>
    intro around f _
    simp [Parts.constructs]
  case cons =>
    intro label tree rest around f g h htree hrest horderly
    obtain ⟨horderly, horderly'⟩ := List.forall_mem_cons.mp horderly
    rw [hrest horderly', htree horderly, Parts.constructs, sitesOf_append, List.count_append, Nat.add_assoc]
  case definitionNil =>
    intro p inner f _ _
    simp [Parts.constructs]
  case definitionName =>
    intro tree rest p inner f g hrest horderly hnames
    rw [hrest (List.forall_mem_cons.mp horderly).2 fun tree htree => hnames tree (List.mem_cons_of_mem _ htree),
      Parts.constructs, hnames tree List.mem_cons_self, List.nil_append]
  case definitionCons =>
    intro label tree rest p inner f g h _ htree hrest horderly hnames
    obtain ⟨horderly, horderly'⟩ := List.forall_mem_cons.mp horderly
    rw [hrest horderly' fun tree htree => hnames tree (List.mem_cons_of_mem _ htree), htree horderly,
      Parts.constructs, sitesOf_append, List.count_append, Nat.add_assoc]

/-! ### Sites at different places -/

section Places

variable (place : Location)

/-- Whether the last of some pieces of text starts at a place, as a number. -/
def lastAt (pieces : List Piece) : Nat :=
  startsAt place pieces.getLast?.toList

theorem lastAt_append_le (xs ys : List Piece) :
  lastAt place (xs ++ ys) ≤ lastAt place xs + lastAt place ys
  := by
  unfold lastAt
  rw [List.getLast?_append]
  cases ys.getLast? <;> simp

theorem lastAt_append_of_ne_nil (xs : List Piece) {ys : List Piece} (hys : ys ≠ []) :
  lastAt place (xs ++ ys) = lastAt place ys
  := by
  unfold lastAt
  rw [List.getLast?_append, List.getLast?_eq_some_getLast hys]
  rfl

/-- How many of the sites of some constructs are at a place. -/
def sitesAt (constructs : List (Construct × Extent × Parts)) : Nat :=
  (sitesOf constructs).countP fun s => s.map (·.2.2.1) = some place

/-- How many sites, zero or one, a tree leaves free at a place where leaves start. -/
def Tree.spareAt (t : Tree) : Nat :=
  if t.IsPlain then lastAt place t.leaves else 0

/-- How many sites some parts leave free. -/
def sparesAt : List (Label × Tree) → Nat
  | [] => 0
  | part :: parts => part.2.spareAt place + sparesAt parts

@[simp]
theorem sparesAt_cons (part : Label × Tree) (parts : List (Label × Tree)) :
  sparesAt place (part :: parts) = part.2.spareAt place + sparesAt place parts
  :=
  rfl

@[simp]
theorem sparesAt_append (parts parts' : List (Label × Tree)) :
  sparesAt place (parts ++ parts') = sparesAt place parts + sparesAt place parts'
  := by
  induction parts with
  | nil => exact (Nat.zero_add _).symm
  | cons part rest ih => rw [List.cons_append, sparesAt_cons, sparesAt_cons, ih, Nat.add_assoc]

theorem spareAt_le_sparesAt {part : Label × Tree} {parts : List (Label × Tree)} (hpart : part ∈ parts) :
  part.2.spareAt place ≤ sparesAt place parts
  := by
  obtain ⟨front, behind, rfl⟩ := List.append_of_mem hpart
  rw [sparesAt_append, sparesAt_cons]
  omega

/-- The last leaf of plain parts is the last one of some of them. -/
theorem lastAt_le_sparesAt {parts : List (Label × Tree)} (hparts : ∀ part ∈ parts, part.2.IsPlain) :
  lastAt place (parts.flatMap (·.2.leaves)) ≤ sparesAt place parts
  := by
  induction parts with
  | nil => exact Nat.zero_le _
  | cons part rest ih =>
    obtain ⟨hpart, hrest⟩ := List.forall_mem_cons.mp hparts
    have hle := lastAt_append_le place part.2.leaves (rest.flatMap (·.2.leaves))
    have hrest := ih hrest
    rw [List.flatMap_cons, sparesAt_cons, Tree.spareAt, if_pos hpart]
    omega

/-- A construct leaves free what its parts do. -/
theorem spareAt_node_le (construct : Construct) (extent : Extent) (parts : Parts) :
  (Tree.node construct extent parts).spareAt place ≤ sparesAt place parts.toList
  := by
  unfold Tree.spareAt
  split
  · rename_i hplain
    rw [Tree.leaves, Parts.leaves_eq]
    exact lastAt_le_sparesAt place fun part hpart => hplain.part hpart
  · exact Nat.zero_le _

/-- Behind a call's callee is what ends the call. -/
theorem spareAt_call_le
    {extent : Extent} {parts behind : Parts} {callee : Tree} (hcut : parts.cut? .callee = some (callee, behind))
    (hbehind : behind.leaves ≠ []) :
  callee.spareAt place + (Tree.node .call extent parts).spareAt place ≤ sparesAt place parts.toList
  := by
  obtain ⟨_, front, htoList, _⟩ := Parts.exists_of_cut? hcut
  have hnode : (Tree.node .call extent parts).spareAt place ≤ sparesAt place behind.toList := by
    unfold Tree.spareAt
    split
    · rename_i hplain
      have hplain' : ∀ part ∈ behind.toList, part.2.IsPlain := by
        intro part hpart
        apply hplain.part
        rw [htoList]
        exact List.mem_append_right _ (List.mem_cons_of_mem _ hpart)
      have hle := lastAt_le_sparesAt place hplain'
      rw [Parts.leaves_eq] at hbehind
      rwa [Tree.leaves, Parts.leaves_eq, htoList, List.flatMap_append, List.flatMap_cons, ← List.append_assoc,
        lastAt_append_of_ne_nil place _ hbehind]
    · exact Nat.zero_le _
  rw [htoList, sparesAt_append, sparesAt_cons]
  dsimp only
  omega

/-- A site takes the place of the last leaf of a plain tree. -/
theorem sitesAt_singleton_le
    {construct : Construct} {extent : Extent} {parts : Parts} {role : Role} {t : Tree}
    (hsited : construct.sited? parts = some (role, t)) (ht : t.IsPlain) :
  sitesAt place [(construct, extent, parts)] ≤ t.spareAt place
  := by
  have hsite : construct.site? parts = t.leaves.getLast?.map fun p => (role, occurrence p) := by
    simp [Construct.site?, hsited]
  rw [sitesAt, sitesOf_cons, sitesOf_nil, List.append_nil, Tree.spareAt, if_pos ht, lastAt]
  split
  · rw [hsite]
    cases t.leaves.getLast? <;> simp [occurrence, List.countP_cons]
  · exact Nat.zero_le _

/-- A construct has its own site at most at a place that its parts leave free. -/
theorem sitesAt_node_le {construct : Construct} {extent : Extent} {parts : Parts}
    (h : (Tree.node construct extent parts).IsOrderly) :
  sitesAt place [(construct, extent, parts)] + (Tree.node construct extent parts).spareAt place
    ≤ sparesAt place parts.toList
  := by
  by_cases hcall : construct = .call
  · subst hcall
    obtain ⟨⟨callee, behind⟩, hcut, hcallee, hbehind⟩ := h.admits
    have hsited : Construct.call.sited? parts = some (.child, callee) := by
      simp [Construct.sited?, Construct.opens, Construct.callee?, (Parts.exists_of_cut? hcut).1]
    have hle : sitesAt place [(.call, extent, parts)] ≤ callee.spareAt place :=
      sitesAt_singleton_le place hsited hcallee.plain
    have hspare : callee.spareAt place + (Tree.node .call extent parts).spareAt place ≤ sparesAt place parts.toList :=
      spareAt_call_le place hcut hbehind
    omega
  by_cases hsite : construct.isSited parts
  · -- definitions and decorators are not plain
    have hnot : ¬ (Tree.node construct extent parts).IsPlain := by
      intro hplain
      have hhere := hplain _ List.mem_cons_self
      cases construct with
      | functionDefinition => cases hhere.1
      | classDefinition => cases hhere.1
      | decorator => exact hhere.2 rfl
      | call => exact hcall rfl
      | _ => cases hsite
    have hspare : (Tree.node construct extent parts).spareAt place = 0 := if_neg hnot
    obtain ⟨role, t, label, hsited, hmem, ht⟩ : ∃ role t label, construct.sited? parts = some (role, t) ∧
        (label, t) ∈ parts.toList ∧ t.IsPlain := by
      by_cases hdecorator : construct = .decorator
      · obtain ⟨callee, hcallee, hcalleeIs⟩ := h.admits.exists_callee (.inr hdecorator)
        obtain ⟨label, hmem, _⟩ := Construct.mem_of_callee? hcallee
        subst hdecorator
        exact ⟨.child, callee, label, by simp [Construct.sited?, Construct.opens, hcallee], hmem, hcalleeIs.plain⟩
      · have hname : construct.nameLabel? = some .name ∧ construct.opens.isSome = true := by
          cases construct <;> first | exact ⟨rfl, rfl⟩ | contradiction
        obtain ⟨text, extent', hfind, _⟩ :=
          Parts.exists_find?_of_hasName (h.isSound.named _ List.mem_cons_self .name hname.1)
        refine ⟨.definition, .identifier text extent', .name, ?_, Parts.mem_of_find? hfind, ?_⟩
        · simp [Construct.sited?, hname.2, hfind]
        · exact List.forall_mem_nil _
    have hle : sitesAt place [(construct, extent, parts)] ≤ t.spareAt place := sitesAt_singleton_le place hsited ht
    have hpart := spareAt_le_sparesAt place hmem
    dsimp only at hpart
    omega
  · have hnone : sitesAt place [(construct, extent, parts)] = 0 := by
      rw [sitesAt, sitesOf_cons, if_neg hsite]
      rfl
    have hspare := spareAt_node_le place construct extent parts
    omega

/-- Of the places where leaves start, one that is left free has no site. -/
theorem Tree.IsOrderly.sitesAt_le {t : Tree} (ht : t.IsOrderly) :
  sitesAt place t.constructs + t.spareAt place ≤ startsAt place t.leaves
  := by
  have hlast (pieces : List Piece) : lastAt place pieces ≤ startsAt place pieces := by
    rcases List.eq_nil_or_concat pieces with rfl | ⟨front, last, rfl⟩
    · exact Nat.le_refl _
    · simp [lastAt]
  induction t using Tree.induction with
  | identifier text extent =>
    have hle := hlast (Tree.identifier text extent).leaves
    simp only [constructs, sitesAt, sitesOf_nil, List.countP_nil, spareAt]
    split <;> omega
  | token named text extent =>
    have hle := hlast (Tree.token named text extent).leaves
    simp only [constructs, sitesAt, sitesOf_nil, List.countP_nil, spareAt]
    split <;> omega
  | node construct extent parts ih =>
    have hnode := sitesAt_node_le place ht
    have hparts : sitesAt place parts.constructs + sparesAt place parts.toList ≤ startsAt place parts.leaves := by
      have horderly : ∀ part ∈ parts.toList, part.2.IsOrderly := fun part hpart => ht.part hpart
      clear hnode ht
      induction parts using Parts.induction with
      | nil => exact Nat.le_refl _
      | cons label tree rest ihrest =>
        obtain ⟨htree, hrest⟩ := List.forall_mem_cons.mp ih
        obtain ⟨horderly, horderly'⟩ := List.forall_mem_cons.mp horderly
        have hle := htree horderly
        have hle' := ihrest hrest horderly'
        simp only [Parts.constructs, sitesAt, sitesOf_append, List.countP_append, Parts.toList, sparesAt_cons,
          Parts.leaves, startsAt_append] at hle hle' ⊢
        omega
    simp only [constructs, leaves, sitesAt, sitesOf_cons, sitesOf_nil, List.append_nil, List.countP_append]
      at hnode hparts ⊢
    omega

end Places

/-! ### Outlines -/

namespace Outline

section Orderly

variable (path : Path) (module : String) (source : List Char) {tree : Tree} (htree : tree.IsOrderly)

include htree

theorem nameOrder_ofTree :
  (ofTree path module source tree).names.Pairwise fun n n' => n.start.before n'.start = true
  := by
  have hnodup := (isDistinct_ofTree path module source htree.isSound).names
  apply Location.pairwise_mergeSort_before
  exact ((List.mergeSort_perm _ _).map NameRef.start).nodup_iff.mp hnodup

theorem names_ofTree :
  (ofTree path module source tree).names.map NameRef.occurrence = tree.identifiers.map occurrence
  := by
  have hperm : ((ofTree path module source tree).names.map NameRef.occurrence).Perm
      (tree.identifiers.map occurrence) := by
    apply (((List.mergeSort_perm _ _).trans (List.reverse_perm _)).map NameRef.occurrence).trans
    exact Tree.perm_names_visit _ htree.isSound.named {}
  have hantisymm : ∀ x y : Occurrence, x ∈ (ofTree path module source tree).names.map NameRef.occurrence →
      y ∈ tree.identifiers.map occurrence → x.2.1.before y.2.1 = true → y.2.1.before x.2.1 = true → x = y := by
    intro x y _ _ h h'
    rw [Location.before_iff] at h h'
    exact absurd h' (Nat.lt_asymm h)
  refine hperm.eq_of_pairwise hantisymm ?_ ?_
  · rw [List.pairwise_map]
    exact nameOrder_ofTree path module source htree
  · rw [List.pairwise_map]
    exact htree.isSound.inOrder

theorem sites_ofTree :
  ((ofTree path module source tree).sites.map Site.occurrence).Perm (sitesOf tree.constructs)
  := by
  apply (((List.mergeSort_perm _ _).trans (List.reverse_perm _)).map Site.occurrence).trans
  rw [List.perm_iff_count]
  intro x
  simpa using tree.count_sites_visit ⟨source, module, path.fileStem? == some "__init__"⟩ x {} {} htree

theorem nodup_sites_ofTree :
  ((ofTree path module source tree).sites.map Site.start).Nodup
  := by
  apply nodup_of_countP_le_one
  intro place
  have hcount := (sites_ofTree path module source htree).countP_eq fun s => s.map (·.2.2.1) = some place
  rw [List.countP_map, ← sitesAt] at hcount
  have hle := htree.sitesAt_le place
  have hone := htree.startsAt_le place
  have hsame : (ofTree path module source tree).sites.countP (·.start = place) = sitesAt place tree.constructs := by
    simpa [Function.comp_def, Site.occurrence] using hcount
  omega

theorem siteOrder_ofTree :
  (ofTree path module source tree).sites.Pairwise fun s s' => s.start.before s'.start = true
  := by
  have hnodup := nodup_sites_ofTree path module source htree
  apply Location.pairwise_mergeSort_before
  exact ((List.mergeSort_perm _ _).map Site.start).nodup_iff.mp hnodup

end Orderly

/-- Every orderly tree is recorded with each of its identifiers, and with each of its definitions, calls and
decorators the first named part of which is no call, once. -/
theorem recorded_once
    (path : Path) (module : String) (source : List Char) {tree : Tree} (htree : tree.IsOrderly) :
  (ofTree path module source tree).Records tree
  where
  names := names_ofTree path module source htree
  nameOrder := nameOrder_ofTree path module source htree
  nameAt _ hn := (isDistinct_ofTree path module source htree.isSound).nameAt hn
  sites := sites_ofTree path module source htree
  siteOrder := siteOrder_ofTree path module source htree
  siteAt _ hs := find?_of_nodup (nodup_sites_ofTree path module source htree) hs

/-- A text with decorators, a definition in another one, and calls of calls and of other expressions. -/
def decoratedText : String :=
  "@d.e\n@f(x)\nclass C(B):\n    def m(self, y=g()):\n        return h(k)(y).z() + (a or b)()\n"

theorem isSome_parse_decorated :
  (parse decoratedText.toList).isSome = true
  := by
  decide +kernel

theorem recorded_once_decorated :
  ∃ tree, parse decoratedText.toList = some tree ∧ tree.IsOrderly ∧
    (ofTree ⟨"/tmp/w/m.py"⟩ "m" decoratedText.toList tree).Records tree ∧
    tree.identifiers.map Prod.fst =
      ["d", "e", "f", "x", "C", "B", "m", "self", "y", "g", "h", "k", "y", "z", "a", "b"] ∧
    (sitesOf tree.constructs).map (·.map fun s => (s.1, s.2.1)) =
      [some (.child, "e"), some (.child, "f"), some (.definition, "C"), some (.definition, "m"),
        some (.child, "g"), some (.child, "z"), some (.child, ")"), some (.child, "h"), some (.child, ")")]
  := by
  have horderly : ((parse decoratedText.toList).get isSome_parse_decorated).IsOrderly := by decide +kernel
  refine ⟨_, (Option.some_get _).symm, horderly, recorded_once ⟨"/tmp/w/m.py"⟩ "m" _ horderly, ?_, ?_⟩
  · decide +kernel
  · decide +kernel

/-- Whether a construct is a definition, a call, or a decorator that is no call. -/
def Construct.isDefinitionOrCall (construct : Construct) (parts : Parts) : Bool :=
  match construct with
  | .decorator => parts.toList.all (·.2.construct? != some .call)
  | _ => construct.isSited parts

/-- A decorator that is a call with a line continuation before it. -/
def continuedText : String :=
  "@\\\nf()\ndef g(): pass\n"

theorem isSome_parse_continued :
  (parse continuedText.toList).isSome = true
  := by
  decide +kernel

/-- Such a decorator has a site of its own, where the line continuation is. -/
theorem not_recorded_once_continued :
  ∃ tree, parse continuedText.toList = some tree ∧ tree.IsOrderly ∧
    (tree.constructs.filter fun c => Construct.isDefinitionOrCall c.1 c.2.2).length = 2 ∧
    ((ofTree ⟨"/tmp/w/m.py"⟩ "m" continuedText.toList tree).sites.map Site.occurrence).Perm
      [some (.child, "\\\n", .known 1 1, .known 2 0), some (.child, "f", .known 2 0, .known 2 1),
        some (.definition, "g", .known 3 4, .known 3 5)]
  := by
  have horderly : ((parse continuedText.toList).get isSome_parse_continued).IsOrderly := by decide +kernel
  refine ⟨_, (Option.some_get _).symm, horderly, ?_, ?_⟩
  · decide +kernel
  · have hsites : sitesOf ((parse continuedText.toList).get isSome_parse_continued).constructs =
        [some (.child, "\\\n", .known 1 1, .known 2 0), some (.child, "f", .known 2 0, .known 2 1),
          some (.definition, "g", .known 3 4, .known 3 5)] := by
      decide +kernel
    exact hsites ▸ sites_ofTree ⟨"/tmp/w/m.py"⟩ "m" _ horderly

end Outline

end CallGraph.Source
