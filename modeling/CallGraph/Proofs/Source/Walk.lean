import CallGraph.Proofs.Location
import CallGraph.Source.Outline
import Mathlib.Data.List.Count

/-!
# Walking syntax trees

What holds of each step of `Tree.visit` holds of the whole walk.  A walk of a tree in which definitions are named by
identifiers records each identifier of the tree once.
-/

namespace CallGraph.Source

/-- Parts one after the other. -/
@[elab_as_elim]
theorem Parts.induction
    {motive : Parts → Prop} (nil : motive .nil)
    (cons : ∀ label tree rest, motive rest → motive (.cons label tree rest)) :
  ∀ parts, motive parts
  | .nil => nil
  | .cons label tree rest => cons label tree rest (Parts.induction nil cons rest)

/-- How many pieces of text start at a place. -/
def startsAt (place : Location) (pieces : List Piece) : Nat :=
  pieces.countP (·.2.start.location = place)

section Counting

variable (place : Location)

@[simp]
theorem startsAt_nil :
  startsAt place [] = 0
  := by
  rfl

@[simp]
theorem startsAt_append (xs ys : List Piece) :
  startsAt place (xs ++ ys) = startsAt place xs + startsAt place ys
  := by
  exact List.countP_append

@[simp]
theorem startsAt_cons (x : Piece) (xs : List Piece) :
  startsAt place (x :: xs) = startsAt place xs + if x.2.start.location = place then 1 else 0
  := by
  simp [startsAt, List.countP_cons]

theorem startsAt_le_one {pieces : List Piece}
    (h : pieces.Pairwise fun p q => p.2.start.location.before q.2.start.location = true) :
  startsAt place pieces ≤ 1
  := by
  have hnodup : (pieces.map (·.2.start.location)).Nodup := by
    rw [List.Nodup, List.pairwise_map]
    exact h.imp Location.ne_of_before
  have hcount := List.nodup_iff_count.mp hnodup place
  rw [List.count, List.countP_map] at hcount
  simpa [startsAt, Function.comp_def, beq_eq_decide] using hcount

end Counting

namespace Findings

/-- How many names were recorded at a place. -/
def namesAt (f : Findings) (place : Location) : Nat :=
  f.names.countP (·.start = place)

/-- How many functions and classes with a name at a place were recorded. -/
def scopesAt (f : Findings) (place : Location) : Nat :=
  f.scopes.countP (·.start = place)

/-- Imports are added to nothing but the imports. -/
theorem addImports_eq (f : Findings) (source : List Char) (module : Option String) (parts : Parts) :
  ∃ imports, f.addImports source module parts = { f with imports }
  := by
  induction parts using Parts.induction generalizing f with
  | nil => exact ⟨f.imports, rfl⟩
  | cons label tree rest ih =>
    cases label with
    | name =>
      obtain ⟨imports, h⟩ := ih { f with imports := (importOf source module tree).toList ++ f.imports }
      exact ⟨imports, h⟩
    | _ => exact ih f

/-- Before its parts are walked, a construct adds no names and no scopes. -/
theorem record_eq
    (f : Findings) (file : FileFacts) (scope : Nat) (construct : Construct) (parts : Parts) :
  ∃ sites imports, f.record file scope construct parts = { f with sites, imports }
  := by
  unfold record
  split
  · split
    · exact ⟨_, f.imports, rfl⟩
    · exact ⟨f.sites, f.imports, rfl⟩
  · split
    · split
      · exact ⟨f.sites, f.imports, rfl⟩
      · exact ⟨_, f.imports, rfl⟩
    · exact ⟨f.sites, f.imports, rfl⟩
  · obtain ⟨imports, h⟩ := f.addImports_eq file.source none parts
    exact ⟨f.sites, imports, h⟩
  · split
    · obtain ⟨imports, h⟩ := f.addImports_eq file.source _ parts
      exact ⟨f.sites, imports, h⟩
    · exact ⟨f.sites, f.imports, rfl⟩
  · exact ⟨f.sites, f.imports, rfl⟩

end Findings

/-! ### The cases of a walk -/

variable (file : FileFacts) (p : Place) (f : Findings)

/-- The place of a part of a definition other than its name; the body is inside the scope that it opens. -/
def Place.ofDefinition (p : Place) (inner : Nat) (label : Label) : Place :=
  { inImport := p.inImport, scope := if label = .body then inner else p.scope }

theorem Parts.visitDefinition_name (inner : Nat) (tree : Tree) (rest : Parts) :
  (Parts.cons .name tree rest).visitDefinition file p inner f = rest.visitDefinition file p inner f
  := by
  rw [Parts.visitDefinition]

theorem Parts.visitDefinition_cons (inner : Nat) {label : Label} (hlabel : label ≠ .name) (tree : Tree) (rest : Parts) :
  (Parts.cons label tree rest).visitDefinition file p inner f
    = rest.visitDefinition file p inner (tree.visit file (p.ofDefinition inner label) f)
  := by
  cases label <;> first | contradiction | rw [Parts.visitDefinition] <;> first | rfl | simp

/-- What holds of the steps of a walk holds of the walk: `T` of a tree, `A` of the parts of a construct, `D`
of the parts of a definition. -/
theorem Tree.visit_induction
    {file : FileFacts} {T : Tree → Place → Findings → Findings → Prop}
    {A : Parts → (Label → Place) → Findings → Findings → Prop}
    {D : Parts → Place → Nat → Findings → Findings → Prop}
    (identifier : ∀ text extent p f, T (.identifier text extent) p f (f.addName p text extent))
    (token : ∀ named text extent p f, T (.token named text extent) p f f)
    (node : ∀ construct extent parts p f g, construct.opens = none →
      A parts (p.enter file.source construct parts) (f.record file p.scope construct parts) g →
      T (.node construct extent parts) p f g)
    (definition : ∀ construct extent parts kind name p f g, construct.opens = some kind →
      parts.find? .name = some name →
      D parts p (f.scopes.length + 1) (f.addDefinition file.source p.scope kind name extent) g →
      T (.node construct extent parts) p f g)
    (unnamed : ∀ construct extent parts kind p f, construct.opens = some kind → parts.find? .name = none →
      T (.node construct extent parts) p f f)
    (nil : ∀ around f, A .nil around f f)
    (cons : ∀ label tree rest around f g h, T tree (around label) f g → A rest around g h →
      A (.cons label tree rest) around f h)
    (definitionNil : ∀ p inner f, D .nil p inner f f)
    (definitionName : ∀ tree rest p inner f g, D rest p inner f g → D (.cons .name tree rest) p inner f g)
    (definitionCons : ∀ label tree rest p inner f g h, label ≠ .name →
      T tree (p.ofDefinition inner label) f g → D rest p inner g h → D (.cons label tree rest) p inner f h)
    (t : Tree) (p : Place) (f : Findings) :
  T t p f (t.visit file p f)
  := by
  induction t using Tree.rec
    (motive_2 := fun parts => (∀ around f, A parts around f (parts.visit file around f)) ∧
      ∀ p inner f, D parts p inner f (parts.visitDefinition file p inner f)) generalizing p f with
  | identifier text extent =>
    rw [Tree.visit]
    apply identifier
  | token named text extent =>
    rw [Tree.visit]
    apply token
  | node construct extent parts ih =>
    rw [Tree.visit]
    cases hopens : construct.opens with
    | none => exact node construct extent parts p f _ hopens (ih.1 _ _)
    | some kind =>
      cases hname : parts.find? .name with
      | none => exact unnamed construct extent parts kind p f hopens hname
      | some name => exact definition construct extent parts kind name p f _ hopens hname (ih.2 _ _ _)
  | nil =>
    constructor
    · intro around f
      rw [Parts.visit]
      apply nil
    · intro p inner f
      rw [Parts.visitDefinition]
      apply definitionNil
  | cons label tree rest htree hrest =>
    constructor
    · intro around f
      rw [Parts.visit]
      apply cons label tree rest around f _ _ (htree _ _) (hrest.1 _ _)
    · intro p inner f
      by_cases hlabel : label = .name
      · rw [hlabel, Parts.visitDefinition_name]
        apply definitionName tree rest p inner f _ (hrest.2 _ _ _)
      · rw [Parts.visitDefinition_cons file p f inner hlabel]
        apply definitionCons label tree rest p inner f _ _ hlabel (htree _ _) (hrest.2 _ _ _)

/-! ### Names -/

theorem Tree.exists_of_isIdentifier {t : Tree} (h : t.isIdentifier = true) :
  ∃ text extent, t = .identifier text extent
  := by
  cases t with
  | identifier text extent => exact ⟨text, extent, rfl⟩
  | token => cases h
  | node => cases h

/-- The first part with a label is the first one of those with it. -/
theorem Parts.find?_eq (label : Label) (parts : Parts) :
  parts.find? label = (parts.toList.filter (·.1 = label)).head?.map Prod.snd
  := by
  induction parts using Parts.induction with
  | nil => rfl
  | cons l tree rest ih =>
    by_cases h : l = label
    · simp [find?, toList, h]
    · simp [find?, toList, h, ih]

theorem Parts.mem_of_find? {label : Label} {parts : Parts} {tree : Tree} (h : parts.find? label = some tree) :
  (label, tree) ∈ parts.toList
  := by
  rw [find?_eq, Option.map_eq_some_iff] at h
  obtain ⟨⟨l, t⟩, hhead, rfl⟩ := h
  have hmem := List.mem_of_head? hhead
  rw [List.mem_filter, decide_eq_true_eq] at hmem
  obtain ⟨hmem, rfl⟩ := hmem
  exact hmem

/-- The parts with the label of a name are a single identifier. -/
theorem Parts.exists_filter_of_hasName {label : Label} {parts : Parts} (h : parts.hasName label = true) :
  ∃ text extent, parts.toList.filter (·.1 = label) = [(label, .identifier text extent)]
  := by
  rw [hasName, beq_iff_eq, List.map_eq_singleton_iff] at h
  obtain ⟨⟨l, t⟩, hfilter, hidentifier⟩ := h
  obtain ⟨text, extent, rfl⟩ := Tree.exists_of_isIdentifier hidentifier
  have hmem : (l, Tree.identifier text extent) ∈ parts.toList.filter (·.1 = label) := by simp [hfilter]
  rw [List.mem_filter, decide_eq_true_eq] at hmem
  obtain ⟨_, rfl⟩ := hmem
  exact ⟨text, extent, hfilter⟩

theorem Parts.exists_find?_of_hasName {label : Label} {parts : Parts} (h : parts.hasName label = true) :
  ∃ text extent, parts.find? label = some (.identifier text extent) ∧
    ∀ tree, (label, tree) ∈ parts.toList → tree = .identifier text extent
  := by
  obtain ⟨text, extent, hfilter⟩ := exists_filter_of_hasName h
  refine ⟨text, extent, by rw [find?_eq, hfilter]; rfl, ?_⟩
  intro tree htree
  have hmem : (label, tree) ∈ parts.toList.filter (·.1 = label) := by simpa using htree
  rw [hfilter, List.mem_singleton] at hmem
  exact congrArg Prod.snd hmem

/-- Constructs each of which has a name if it is one that is named. -/
def AreNamed (constructs : List (Construct × Extent × Parts)) : Prop :=
  ∀ c ∈ constructs, ∀ label ∈ c.1.nameLabel?, c.2.2.hasName label = true

theorem Tree.areNamed_node {construct : Construct} {extent : Extent} {parts : Parts} :
  AreNamed (Tree.node construct extent parts).constructs ↔
    (∀ label ∈ construct.nameLabel?, parts.hasName label = true) ∧ AreNamed parts.constructs
  := by
  rw [AreNamed, constructs, List.forall_mem_cons]
  rfl

theorem Parts.areNamed_cons {label : Label} {tree : Tree} {rest : Parts} :
  AreNamed (Parts.cons label tree rest).constructs ↔ AreNamed tree.constructs ∧ AreNamed rest.constructs
  := by
  rw [AreNamed, constructs, List.forall_mem_append]
  rfl

theorem Parts.areNamed_of_mem {parts : Parts} (h : AreNamed parts.constructs) {part : Label × Tree}
    (hpart : part ∈ parts.toList) :
  AreNamed part.2.constructs
  := by
  induction parts using Parts.induction with
  | nil => cases hpart
  | cons label tree rest ih =>
    obtain ⟨htree, hrest⟩ := areNamed_cons.mp h
    rcases List.mem_cons.mp hpart with rfl | hpart
    · exact htree
    · exact ih hrest hpart

/-- A definition has its name in a part with this label. -/
theorem Construct.nameLabel?_of_opens {construct : Construct} {kind : ScopeKind} (h : construct.opens = some kind) :
  construct.nameLabel? = some .name
  := by
  cases construct <;> cases h <;> rfl

/-- A text with the places where it starts and stops. -/
abbrev Occurrence := String × Location × Location

/-- Where a piece of text stands. -/
def occurrence (p : Piece) : Occurrence :=
  (p.1, p.2.start.location, p.2.stop.location)

/-- The recorded occurrence of a name. -/
def NameRef.occurrence (n : NameRef) : Occurrence :=
  (n.name, n.start, n.stop)

/-- A walk of a tree in which definitions have names records each of its identifiers once more. -/
theorem Tree.count_names_visit (x : Occurrence) (t : Tree) (p : Place) (f : Findings) :
  AreNamed t.constructs →
    ((t.visit file p f).names.map NameRef.occurrence).count x
      = (f.names.map NameRef.occurrence).count x + (t.identifiers.map occurrence).count x
  := by
  apply Tree.visit_induction
    (T := fun t _ f g => AreNamed t.constructs →
      (g.names.map NameRef.occurrence).count x
        = (f.names.map NameRef.occurrence).count x + (t.identifiers.map occurrence).count x)
    (A := fun parts _ f g => AreNamed parts.constructs →
      (g.names.map NameRef.occurrence).count x
        = (f.names.map NameRef.occurrence).count x + (parts.identifiers.map occurrence).count x)
    (D := fun parts _ _ f g => AreNamed parts.constructs →
      (g.names.map NameRef.occurrence).count x
          + (((parts.toList.filter (·.1 = .name)).flatMap (·.2.identifiers)).map occurrence).count x
        = (f.names.map NameRef.occurrence).count x + (parts.identifiers.map occurrence).count x)
  case identifier =>
    intro text extent p f _
    simp [Tree.identifiers, Findings.addName, NameRef.occurrence, occurrence, List.count_cons]
  case token =>
    intro named text extent p f _
    simp [Tree.identifiers]
  case node =>
    intro construct extent parts p f g _ h hnamed
    obtain ⟨sites, imports, hrecord⟩ := f.record_eq file p.scope construct parts
    rw [hrecord] at h
    exact h (areNamed_node.mp hnamed).2
  case definition =>
    intro construct extent parts kind name p f g hopens hname h hnamed
    obtain ⟨hhasName, hnamed⟩ := areNamed_node.mp hnamed
    obtain ⟨text, extent', hfilter⟩ :=
      Parts.exists_filter_of_hasName (hhasName .name (Construct.nameLabel?_of_opens hopens))
    have hfind := parts.find?_eq .name
    rw [hname, hfilter] at hfind
    cases hfind
    have hparts := h hnamed
    simp [hfilter, Findings.addDefinition, List.count_cons, NameRef.occurrence, occurrence, Tree.identifiers,
      Tree.extent, Tree.textIn] at hparts ⊢
    omega
  case unnamed =>
    intro construct extent parts kind p f hopens hnone hnamed
    obtain ⟨text, extent', hfind, _⟩ := Parts.exists_find?_of_hasName
      ((areNamed_node.mp hnamed).1 .name (Construct.nameLabel?_of_opens hopens))
    cases hnone.symm.trans hfind
  case nil =>
    intro around f _
    simp [Parts.identifiers]
  case cons =>
    intro label tree rest around f g h htree hrest hnamed
    obtain ⟨hnamed, hnamed'⟩ := Parts.areNamed_cons.mp hnamed
    rw [hrest hnamed', htree hnamed, Parts.identifiers, List.map_append, List.count_append, Nat.add_assoc]
  case definitionNil =>
    intro p inner f _
    simp [Parts.identifiers, Parts.toList]
  case definitionName =>
    intro tree rest p inner f g h hnamed
    have hrest := h (Parts.areNamed_cons.mp hnamed).2
    simp [Parts.identifiers, Parts.toList] at hrest ⊢
    omega
  case definitionCons =>
    intro label tree rest p inner f g h hlabel htree hrest hnamed
    obtain ⟨hnamed, hnamed'⟩ := Parts.areNamed_cons.mp hnamed
    have htree' := htree hnamed
    have hrest' := hrest hnamed'
    simp [Parts.identifiers, Parts.toList, hlabel] at hrest' ⊢
    omega

/-- A walk of such a tree records its identifiers. -/
theorem Tree.perm_names_visit {t : Tree} (hnamed : AreNamed t.constructs) (p : Place) :
  ((t.visit file p {}).names.map NameRef.occurrence).Perm (t.identifiers.map occurrence)
  := by
  rw [List.perm_iff_count]
  intro x
  simpa using t.count_names_visit file x p {} hnamed

/-- So it records as many names at a place as there are identifiers. -/
theorem Tree.namesAt_visit {t : Tree} (hnamed : AreNamed t.constructs) (p : Place) (place : Location) :
  (t.visit file p {}).namesAt place = startsAt place t.identifiers
  := by
  have hcount := (perm_names_visit file hnamed p).countP_eq (·.2.1 = place)
  rw [List.countP_map, List.countP_map] at hcount
  exact hcount

end CallGraph.Source
