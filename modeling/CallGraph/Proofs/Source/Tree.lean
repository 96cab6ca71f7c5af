import CallGraph.Proofs.Location
import CallGraph.Proofs.Source.Records

/-!
# Syntax trees without errors

In a tree without errors the parts of each construct stand one behind the other inside it, comments and line
continuations among them, and each construct has the parts that it may have: a call a callee and brackets behind
it, a decorator something to take for its callee, an attribute a name at its end, and a definition a name, and a
body at its end.  Callees hold no definitions.
-/

namespace CallGraph.Source

mutual

/-- The pieces of text that a tree spells, from left to right. -/
def Tree.leaves : Tree → List Piece
  | .identifier text extent => [(text, extent)]
  | .token _ text extent => if text = "" then [] else [(text, extent)]
  | .node _ _ parts => parts.leaves

/-- The pieces of text that some parts spell. -/
def Parts.leaves : Parts → List Piece
  | .nil => []
  | .cons _ tree rest => tree.leaves ++ rest.leaves

end

/-- The piece of text that a leaf spells. -/
def Tree.piece? : Tree → Option Piece
  | .identifier text extent => some (text, extent)
  | .token _ text extent => if text = "" then none else some (text, extent)
  | .node _ _ _ => none

/-- A tree without definitions and decorators. -/
def Tree.IsPlain (t : Tree) : Prop :=
  ∀ c ∈ t.constructs, c.1.opens = none ∧ c.1 ≠ .decorator

/-- The first part with a label, and the parts behind it. -/
def Parts.cut? (label : Label) : Parts → Option (Tree × Parts)
  | .nil => none
  | .cons l tree rest => if l = label then some (tree, rest) else rest.cut? label

/-- Whether the first part with a label is the last one of all. -/
def Parts.endIn (label : Label) (parts : Parts) : Bool :=
  match parts.cut? label with
  | some (_, .nil) => true
  | _ => false

/-- A plain tree whose last leaf has text. -/
structure Tree.IsCallee (t : Tree) : Prop where
  plain : t.IsPlain
  endsInText : t.lastLeaf.piece?.isSome = true

/-- The parts that a construct may have. -/
def Construct.Admits (construct : Construct) (parts : Parts) : Prop :=
  match construct with
  | .call => ∃ cut ∈ parts.cut? .callee, cut.1.IsCallee ∧ cut.2.leaves ≠ []
  | .decorator => ∃ callee ∈ parts.firstNamed?, callee.IsCallee
  | .attribute => parts.hasName .attribute = true ∧ parts.endIn .attribute = true
  | .functionDefinition => parts.hasName .name = true ∧ parts.endIn .body = true
  | .classDefinition => parts.hasName .name = true ∧ parts.endIn .body = true
  | _ => True

/-- Extents that stand one behind the other, from one place to another one. -/
def InOrder (stop : Location) : Location → List Extent → Prop
  | start, [] => start.notAfter stop = true
  | start, e :: rest =>
    start.notAfter e.start.location = true ∧ e.start.location.notAfter e.stop.location = true ∧
      InOrder stop e.stop.location rest

/-- A tree without errors.  The parts of each construct stand inside it, one behind the other. -/
structure Tree.IsOrderly (t : Tree) : Prop where
  admitted : ∀ c ∈ t.constructs, c.1.Admits c.2.2
  inOrder : ∀ c ∈ t.constructs, InOrder c.2.1.stop.location c.2.1.start.location (c.2.2.toList.map (·.2.extent))
  spelled : ∀ p ∈ t.leaves, p.2.start.location.before p.2.stop.location = true

section Deciding

instance (t : Tree) : Decidable t.IsPlain :=
  inferInstanceAs (Decidable (∀ c ∈ t.constructs, _))

instance (t : Tree) : Decidable t.IsCallee :=
  decidable_of_iff (t.IsPlain ∧ t.lastLeaf.piece?.isSome = true) ⟨fun h => ⟨h.1, h.2⟩, fun h => ⟨h.plain, h.endsInText⟩⟩

instance : (construct : Construct) → (parts : Parts) → Decidable (construct.Admits parts)
  | .call, parts => inferInstanceAs (Decidable (∃ cut ∈ parts.cut? .callee, _))
  | .decorator, parts => inferInstanceAs (Decidable (∃ callee ∈ parts.firstNamed?, _))
  | .attribute, parts => inferInstanceAs (Decidable (parts.hasName .attribute = true ∧ _))
  | .functionDefinition, parts => inferInstanceAs (Decidable (parts.hasName .name = true ∧ _))
  | .classDefinition, parts => inferInstanceAs (Decidable (parts.hasName .name = true ∧ _))
  | .assignment, _ => inferInstanceAs (Decidable True)
  | .importStatement, _ => inferInstanceAs (Decidable True)
  | .importFrom, _ => inferInstanceAs (Decidable True)
  | .aliasedImport, _ => inferInstanceAs (Decidable True)
  | .dottedName, _ => inferInstanceAs (Decidable True)
  | .group, _ => inferInstanceAs (Decidable True)

instance (stop : Location) : (start : Location) → (extents : List Extent) → Decidable (InOrder stop start extents)
  | start, [] => inferInstanceAs (Decidable (start.notAfter stop = true))
  | start, e :: rest =>
    have := instDecidableInOrder stop e.stop.location rest
    inferInstanceAs (Decidable (start.notAfter e.start.location = true ∧ _ ∧ InOrder stop e.stop.location rest))

instance (t : Tree) : Decidable t.IsOrderly :=
  decidable_of_iff (_ ∧ _ ∧ _) ⟨fun h => ⟨h.1, h.2.1, h.2.2⟩, fun h => ⟨h.admitted, h.inOrder, h.spelled⟩⟩

end Deciding

/-! ### Leaves -/

/-- A tree's last leaf, if it has text, is the last one of the leaves that have. -/
theorem Tree.getLast?_leaves {t : Tree} {p : Piece} (h : t.lastLeaf.piece? = some p) :
  t.leaves.getLast? = some p
  := by
  induction t using Tree.rec
    (motive_2 := fun parts => ∀ other, (parts.lastLeafOr other).piece? = some p →
      parts = .nil ∧ other.piece? = some p ∨ parts.leaves.getLast? = some p) with
  | identifier text extent => exact h
  | token named text extent =>
    rw [lastLeaf, piece?] at h
    rw [leaves]
    split at h
    · cases h
    · rename_i htext
      rw [if_neg htext]
      exact h
  | node construct extent parts ih =>
    rcases ih _ h with ⟨_, hnode⟩ | hleaves
    · cases hnode
    · exact hleaves
  | nil =>
    rename_i other h
    exact .inl ⟨rfl, h⟩
  | cons label tree rest htree hrest =>
    rename_i other h
    right
    rw [Parts.leaves]
    rcases hrest tree.lastLeaf h with ⟨rfl, hlast⟩ | hlast
    · rw [Parts.leaves, List.append_nil]
      exact htree hlast
    · rw [List.getLast?_append, hlast]
      rfl

theorem Parts.leaves_eq (parts : Parts) :
  parts.leaves = parts.toList.flatMap (·.2.leaves)
  := by
  induction parts using Parts.induction with
  | nil => rfl
  | cons label tree rest ih => rw [leaves, ih, toList, List.flatMap_cons]

theorem Parts.constructs_eq (parts : Parts) :
  parts.constructs = parts.toList.flatMap (·.2.constructs)
  := by
  induction parts using Parts.induction with
  | nil => rfl
  | cons label tree rest ih => rw [constructs, ih, toList, List.flatMap_cons]

/-- A property holds of every tree if it goes from the parts of a construct to the construct. -/
@[elab_as_elim]
theorem Tree.induction
    {motive : Tree → Prop} (identifier : ∀ text extent, motive (.identifier text extent))
    (token : ∀ named text extent, motive (.token named text extent))
    (node : ∀ construct extent parts, (∀ part ∈ parts.toList, motive part.2) → motive (.node construct extent parts))
    (t : Tree) :
  motive t
  := by
  induction t using Tree.rec (motive_2 := fun parts => ∀ part ∈ parts.toList, motive part.2) with
  | identifier text extent => exact identifier text extent
  | token named text extent => exact token named text extent
  | node construct extent parts ih => exact node construct extent parts ih
  | nil =>
    rename_i hpart
    cases hpart
  | cons label tree rest htree hrest =>
    rename_i part hpart
    rcases List.mem_cons.mp hpart with rfl | hpart
    · exact htree
    · exact hrest part hpart

/-! ### Order -/

namespace Extent

/-- The number of the place where an extent starts. -/
def low (e : Extent) : Nat :=
  e.start.location.index

/-- The number of the place where an extent stops. -/
def high (e : Extent) : Nat :=
  e.stop.location.index

end Extent

/-- Extents in order are between the places where they begin and end. -/
theorem InOrder.bounds {stop start : Location} {extents : List Extent} (h : InOrder stop start extents) :
  start.index ≤ stop.index ∧
    ∀ e ∈ extents, start.index ≤ e.low ∧ e.low ≤ e.high ∧ e.high ≤ stop.index
  := by
  induction extents generalizing start with
  | nil => exact ⟨Location.notAfter_iff.mp h, by simp⟩
  | cons e rest ih =>
    obtain ⟨hstart, hforward, hrest⟩ := h
    rw [Location.notAfter_iff] at hstart hforward
    obtain ⟨hstop, hinner⟩ := ih hrest
    refine ⟨by omega, List.forall_mem_cons.mpr ⟨?_, ?_⟩⟩
    · unfold Extent.low Extent.high
      omega
    · intro e' he'
      have hbounds := hinner e' he'
      omega

/-- Of extents in order, each stops before those behind it start. -/
theorem InOrder.pairwise {stop start : Location} {extents : List Extent} (h : InOrder stop start extents) :
  extents.Pairwise fun e e' => e.high ≤ e'.low
  := by
  induction extents generalizing start with
  | nil => exact .nil
  | cons e rest ih =>
    obtain ⟨_, _, hrest⟩ := h
    exact .cons (fun e' he' => (hrest.bounds.2 e' he').1) (ih hrest)

namespace Tree.IsOrderly

section Node

variable {construct : Construct} {extent : Extent} {parts : Parts}
variable (h : (Tree.node construct extent parts).IsOrderly)

include h

/-- The parts of an orderly tree are orderly. -/
theorem part {part : Label × Tree} (hpart : part ∈ parts.toList) :
  part.2.IsOrderly
  := by
  have hconstructs : part.2.constructs ⊆ (Tree.node construct extent parts).constructs := by
    rw [constructs, Parts.constructs_eq]
    intro c hc
    exact List.mem_cons_of_mem _ (List.mem_flatMap_of_mem hpart hc)
  constructor
  · exact fun c hc => h.admitted c (hconstructs hc)
  · exact fun c hc => h.inOrder c (hconstructs hc)
  · intro p hp
    apply h.spelled
    rw [leaves, Parts.leaves_eq]
    exact List.mem_flatMap_of_mem hpart hp

theorem admits :
  construct.Admits parts
  :=
  h.admitted _ List.mem_cons_self

/-- The parts stand inside the construct. -/
theorem inside {part : Label × Tree} (hpart : part ∈ parts.toList) :
  extent.low ≤ part.2.extent.low ∧ part.2.extent.low ≤ part.2.extent.high ∧ part.2.extent.high ≤ extent.high
  :=
  (h.inOrder _ List.mem_cons_self).bounds.2 _ (List.mem_map_of_mem hpart)

/-- The parts stand one behind the other. -/
theorem behind :
  parts.toList.Pairwise fun part part' => part.2.extent.high ≤ part'.2.extent.low
  := by
  have horder := (h.inOrder (construct, extent, parts) List.mem_cons_self).pairwise
  rw [List.pairwise_map] at horder
  exact horder

end Node

variable {t : Tree} (ht : t.IsOrderly)

include ht

/-- The leaves of an orderly tree stand inside it. -/
theorem leaf_inside {p : Piece} (hp : p ∈ t.leaves) :
  t.extent.low ≤ p.2.low ∧ p.2.low < p.2.high ∧ p.2.high ≤ t.extent.high
  := by
  induction t using Tree.induction with
  | identifier text extent =>
    have hspelled := Location.before_iff.mp (ht.spelled p hp)
    obtain rfl := List.mem_singleton.mp hp
    exact ⟨Nat.le_refl _, hspelled, Nat.le_refl _⟩
  | token named text extent =>
    have hspelled := Location.before_iff.mp (ht.spelled p hp)
    rw [leaves] at hp
    split at hp
    · cases hp
    · obtain rfl := List.mem_singleton.mp hp
      exact ⟨Nat.le_refl _, hspelled, Nat.le_refl _⟩
  | node construct extent parts ih =>
    rw [leaves, Parts.leaves_eq, List.mem_flatMap] at hp
    obtain ⟨part, hpart, hp⟩ := hp
    have hinside := ht.inside hpart
    have hleaf := ih part hpart (ht.part hpart) hp
    simp only [Tree.extent]
    omega

/-- The leaves of an orderly tree stand one behind the other. -/
theorem leaves_apart :
  t.leaves.Pairwise fun p q => p.2.high ≤ q.2.low
  := by
  induction t using Tree.induction with
  | identifier text extent => exact List.pairwise_singleton ..
  | token named text extent =>
    rw [leaves]
    split
    · exact .nil
    · exact List.pairwise_singleton ..
  | node construct extent parts ih =>
    rw [leaves, Parts.leaves_eq, List.pairwise_flatMap]
    refine ⟨fun part hpart => ih part hpart (ht.part hpart), ?_⟩
    apply ht.behind.imp_of_mem
    intro part part' hpart hpart' hbehind p hp q hq
    have hleaf := (ht.part hpart).leaf_inside hp
    have hleaf' := (ht.part hpart').leaf_inside hq
    omega

/-- Each leaf of an orderly tree starts before those behind it. -/
theorem starts :
  t.leaves.Pairwise fun p q => p.2.start.location.before q.2.start.location = true
  := by
  apply ht.leaves_apart.imp_of_mem
  intro p q hp _ hapart
  have hspelled := ht.leaf_inside hp
  rw [Location.before_iff]
  unfold Extent.low Extent.high at *
  omega

/-- No two leaves of an orderly tree start at the same place. -/
theorem startsAt_le (place : Location) :
  startsAt place t.leaves ≤ 1
  := by
  exact startsAt_le_one place ht.starts

end Tree.IsOrderly

/-- The identifiers of a tree are among its leaves, in the same order. -/
theorem Tree.identifiers_sublist (t : Tree) :
  t.identifiers.Sublist t.leaves
  := by
  induction t using Tree.rec (motive_2 := fun parts => parts.identifiers.Sublist parts.leaves) with
  | identifier text extent => exact List.Sublist.refl _
  | token named text extent => exact List.nil_sublist _
  | node construct extent parts ih => exact ih
  | nil => exact List.Sublist.refl _
  | cons label tree rest htree hrest => exact htree.append hrest

/-- Orderly trees are sound. -/
theorem Tree.IsOrderly.isSound {t : Tree} (ht : t.IsOrderly) :
  t.IsSound
  where
  inOrder := ht.starts.sublist t.identifiers_sublist
  named := by
    rintro ⟨construct, extent, parts⟩ hc label hlabel
    have hadmits := ht.admitted _ hc
    cases construct <;> cases hlabel <;> exact hadmits.1

/-! ### Callees -/

theorem Parts.exists_of_cut? {label : Label} {parts behind : Parts} {tree : Tree}
    (h : parts.cut? label = some (tree, behind)) :
  parts.find? label = some tree ∧
    ∃ front, parts.toList = front ++ (label, tree) :: behind.toList ∧ ∀ part ∈ front, part.1 ≠ label
  := by
  induction parts using Parts.induction with
  | nil => cases h
  | cons l first rest ih =>
    rw [cut?] at h
    split at h
    · rename_i hl
      cases h
      exact ⟨by rw [find?, if_pos hl], [], by rw [toList, hl, List.nil_append], List.forall_mem_nil _⟩
    · rename_i hl
      obtain ⟨hfind, front, htoList, hfront⟩ := ih h
      refine ⟨by rw [find?, if_neg hl, hfind], (l, first) :: front, ?_, List.forall_mem_cons.mpr ⟨hl, hfront⟩⟩
      rw [toList, htoList, List.cons_append]

/-- If the first part with a label is the last one of all, the others are before it. -/
theorem Parts.exists_of_endIn {label : Label} {parts : Parts} (h : parts.endIn label = true) :
  ∃ tree front, parts.find? label = some tree ∧ parts.toList = front ++ [(label, tree)] ∧
    ∀ part ∈ front, part.1 ≠ label
  := by
  unfold endIn at h
  split at h
  · rename_i tree hcut
    obtain ⟨hfind, front, hparts⟩ := exists_of_cut? hcut
    exact ⟨tree, front, hfind, hparts⟩
  · cases h

theorem Tree.IsPlain.part {construct : Construct} {extent : Extent} {parts : Parts}
    (h : (Tree.node construct extent parts).IsPlain) {part : Label × Tree} (hpart : part ∈ parts.toList) :
  part.2.IsPlain
  := by
  intro c hc
  apply h
  rw [constructs, Parts.constructs_eq]
  exact List.mem_cons_of_mem _ (List.mem_flatMap_of_mem hpart hc)

/-- Calls and decorators have callees. -/
theorem Construct.Admits.exists_callee
    {construct : Construct} {parts : Parts} (h : construct.Admits parts)
    (hconstruct : construct = .call ∨ construct = .decorator) :
  ∃ callee, construct.callee? parts = some callee ∧ callee.IsCallee
  := by
  rcases hconstruct with rfl | rfl
  · obtain ⟨⟨callee, behind⟩, hcut, hcallee, _⟩ := h
    exact ⟨callee, (Parts.exists_of_cut? hcut).1, hcallee⟩
  · exact h

/-- A leaf spells the text at its place. -/
theorem Tree.eq_of_piece? {t : Tree} {p : Piece} (h : t.piece? = some p) (source : List Char) :
  t.textIn source = p.1 ∧ t.extent = p.2
  := by
  cases t with
  | identifier text extent =>
    cases h
    exact ⟨rfl, rfl⟩
  | token named text extent =>
    rw [piece?] at h
    split at h
    · cases h
    · cases h
      exact ⟨rfl, rfl⟩
  | node construct extent parts => cases h

/-- The anchor of a callee is its last leaf. -/
theorem Tree.IsCallee.exists_anchor {t : Tree} (ht : t.IsCallee) (horderly : t.IsOrderly) :
  ∃ p, t.anchor.1.piece? = some p ∧ t.leaves.getLast? = some p
  := by
  obtain ⟨p, hp⟩ := Option.isSome_iff_exists.mp ht.endsInText
  have hlast := getLast?_leaves hp
  cases t with
  | identifier text extent => exact ⟨p, hp, hlast⟩
  | token named text extent => exact ⟨p, hp, hlast⟩
  | node construct extent parts =>
    by_cases hattribute : construct = .attribute
    · subst hattribute
      obtain ⟨hhasName, hend⟩ := horderly.admits
      obtain ⟨text, extent', hfind, _⟩ := Parts.exists_find?_of_hasName hhasName
      obtain ⟨tree, front, hfind', htoList, _⟩ := Parts.exists_of_endIn hend
      cases hfind.symm.trans hfind'
      refine ⟨(text, extent'), by rw [anchor, hfind]; rfl, ?_⟩
      rw [leaves, Parts.leaves_eq, htoList, List.flatMap_append, List.flatMap_singleton, List.getLast?_append]
      rfl
    · have hanchor : (node construct extent parts).anchor = ((node construct extent parts).lastLeaf, none) := by
        cases construct <;> first | contradiction | rfl
      exact ⟨p, by rw [hanchor]; exact hp, hlast⟩

/-- So its site is there. -/
theorem Tree.IsCallee.exists_siteOf {t : Tree} (ht : t.IsCallee) (horderly : t.IsOrderly) (source : List Char)
    (scope : Nat) :
  ∃ p qualifier, t.leaves.getLast? = some p ∧ Findings.siteOf source scope t =
    { scope, name := p.1, qualifier, role := .child, start := p.2.start.location, stop := p.2.stop.location }
  := by
  obtain ⟨p, hanchor, hlast⟩ := ht.exists_anchor horderly
  obtain ⟨htext, hextent⟩ := eq_of_piece? hanchor source
  refine ⟨p, t.anchor.2.map (·.textIn source), hlast, ?_⟩
  rw [Findings.siteOf, ← htext, ← hextent]

end CallGraph.Source
