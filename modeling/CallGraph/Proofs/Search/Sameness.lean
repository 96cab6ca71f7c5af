import CallGraph.Proofs.Files.Lookup
import CallGraph.Search.Neighbours
import Mathlib.Data.List.Forall2

/-!
# Vertices that are the same

Two vertices are the same when their elements and their definitions are equal, with paths compared as paths.  What is
made of equal facts are vertices that are the same, one by one, and what is looked for around vertices that are the
same starts from anchors that are.
-/

namespace CallGraph

/-- Equality as `==` has it. -/
abbrev Equal {α : Type} [BEq α] (a b : α) : Prop :=
  (a == b) = true

instance Prod.equivBEq {α β : Type} [BEq α] [BEq β] [EquivBEq α] [EquivBEq β] : EquivBEq (α × β) where
  rfl := Bool.and_eq_true_iff.mpr ⟨beq_self_eq_true _, beq_self_eq_true _⟩
  symm h := by
    obtain ⟨h₁, h₂⟩ := Bool.and_eq_true_iff.mp h
    exact Bool.and_eq_true_iff.mpr ⟨BEq.symm h₁, BEq.symm h₂⟩
  trans h h' := by
    obtain ⟨h₁, h₂⟩ := Bool.and_eq_true_iff.mp h
    obtain ⟨h₁', h₂'⟩ := Bool.and_eq_true_iff.mp h'
    exact Bool.and_eq_true_iff.mpr ⟨BEq.trans h₁ h₁', BEq.trans h₂ h₂'⟩

theorem contains_beq {α : Type} [BEq α] [EquivBEq α] {a a' : α} (h : (a == a') = true) {as as' : List α}
    (has : List.Forall₂ Equal as as') :
  as.contains a = as'.contains a'
  := by
  induction has with
  | nil => rfl
  | cons hb _ ih => rw [List.contains_cons, List.contains_cons, ih, BEq.congr_left h, BEq.congr_right hb]

/-- Paths that may be missing are equal when both are or neither is. -/
theorem Path.rel_of_equal {p q : Option Path} (h : Equal p q) :
  Option.Rel Equal p q
  := by
  cases p with
  | none =>
    cases q with
    | none => exact .none
    | some q => cases h
  | some p =>
    cases q with
    | none => cases h
    | some q => exact .some h

theorem Path.isSome_of_equal {p q : Option Path} (h : Equal p q) :
  p.isSome = q.isSome
  := by
  cases rel_of_equal h with
  | none => rfl
  | some _ => rfl

/-! ### Vertices and anchors -/

/-- Vertices with equal elements and equal definitions. -/
structure Vertex.Same (v v' : Vertex) : Prop where
  element : Equal v.element v'.element
  definition : Option.Rel Equal v.definition v'.definition

/-- Anchors of the same symbol. -/
inductive Anchor.Same : Anchor → Anchor → Prop where
  | definition {d d' : Definition} (equal : Equal d d') : Same (.definition d) (.definition d')
  | callSite {p p' : CallPosition} (equal : Equal p p') (name : String) : Same (.callSite p name) (.callSite p' name)
  | importProbe (name : String) : Same (.importProbe name) (.importProbe name)

theorem Definition.equal_position {d d' : Definition} (h : Equal d d') :
  Equal d.position d'.position
  := by
  obtain ⟨hpath, _, _, _, hstart, hstop⟩ := Definition.beq_iff.mp h
  exact CallPosition.beq_iff.mpr ⟨hpath, hstart, hstop⟩

theorem CallSite.equal_position {s s' : CallSite} (h : Equal s s') :
  Equal s.position s'.position
  := by
  obtain ⟨hpath, _, _, _, hstart, hstop⟩ := CallSite.beq_iff.mp h
  exact CallPosition.beq_iff.mpr ⟨hpath, hstart, hstop⟩

theorem Usage.equal_position {u u' : Usage} (h : Equal u u') :
  Equal u.position u'.position
  := by
  obtain ⟨hpath, _, _, hstart, hstop⟩ := Usage.beq_iff.mp h
  exact CallPosition.beq_iff.mpr ⟨hpath, hstart, hstop⟩

namespace Vertex

variable {v v' : Vertex}

theorem Same.refl (v : Vertex) :
  v.Same v
  := by
  refine ⟨beq_self_eq_true _, ?_⟩
  cases v.definition with
  | none => exact .none
  | some d => exact .some (beq_self_eq_true d)

theorem Same.ofDefinition {d d' : Definition} (hd : Equal d d') {p p' : CallPosition} (hp : Equal p p') (role : Role) :
  (Vertex.ofDefinition role p d).Same (Vertex.ofDefinition role p' d')
  := by
  obtain ⟨hpath, hname, hkind, hmodule, hstart, hstop⟩ := Definition.beq_iff.mp hd
  exact ⟨Element.beq_iff.mpr ⟨hpath, hp, hname, hkind, hmodule, rfl, hstart, hstop⟩, .some hd⟩

theorem Same.isModule (h : v.Same v') :
  v.element.isModule = v'.element.isModule
  := by
  obtain ⟨_, _, _, hkind, _⟩ := Element.beq_iff.mp h.element
  rw [Element.isModule, Element.isModule, hkind]

/-- The leaf that shows the definition of a vertex. -/
theorem Same.signature? (h : v.Same v') :
  Option.Rel Same v.signature? v'.signature?
  := by
  obtain ⟨hpath, _, hname, hkind, hmodule, _, hstart, hstop⟩ := Element.beq_iff.mp h.element
  have hnone : v.element.path.isNone = v'.element.path.isNone := by
    rw [← Option.not_isSome, ← Option.not_isSome, Path.isSome_of_equal hpath]
  rw [Vertex.signature?, Vertex.signature?, hnone, h.isModule]
  split
  · exact .none
  · refine .some ⟨Element.beq_iff.mpr ?_, h.definition⟩
    exact ⟨hpath, CallPosition.beq_iff.mpr ⟨hpath, hstart, hstop⟩, hname, hkind, hmodule, rfl, hstart, hstop⟩

/-- The anchor to search usages by. -/
theorem Same.anchor? (h : v.Same v') :
  Option.Rel Anchor.Same v.anchor? v'.anchor?
  := by
  obtain ⟨_, hcall, hname, _⟩ := Element.beq_iff.mp h.element
  have hsite := Path.isSome_of_equal (CallPosition.beq_iff.mp hcall).1
  have hdefinition := h.definition
  unfold Vertex.anchor?
  rw [← hsite, ← hname]
  generalize v.definition = o, v'.definition = o' at hdefinition
  cases hdefinition with
  | none =>
    dsimp only
    split
    · exact .some (.callSite hcall _)
    · exact .none
  | some hd =>
    dsimp only
    rw [← Path.isSome_of_equal (Definition.beq_iff.mp hd).1]
    split
    · exact .some (.definition hd)
    · split
      · exact .some (.callSite hcall _)
      · exact .some (.importProbe _)

theorem Same.isDefinedAt (h : v.Same v') {e e' : Element} (he : Equal e e') :
  v.isDefinedAt e = v'.isDefinedAt e'
  := by
  obtain ⟨hpath, _, _, _, _, _, hstart, _⟩ := Element.beq_iff.mp h.element
  obtain ⟨_, hcall, _, hkind, _⟩ := Element.beq_iff.mp he
  obtain ⟨hcallPath, hcallStart, _⟩ := CallPosition.beq_iff.mp hcall
  unfold Vertex.isDefinedAt Element.isModule
  rw [BEq.congr_left hcallPath, BEq.congr_right hpath, hcallStart, hstart, hkind]

end Vertex

/-- The usages that count for an anchor. -/
theorem Anchor.Same.counted {a a' : Anchor} (h : a.Same a') {us us' : List Usage} (hus : List.Forall₂ Equal us us') :
  List.Forall₂ Equal (a.counted us) (a'.counted us')
  := by
  cases h with
  | importProbe name =>
    apply List.rel_filter _ hus
    intro u u' hu
    obtain ⟨_, _, hmodule, _⟩ := Usage.beq_iff.mp hu
    dsimp only
    rw [hmodule]
  | _ => exact hus

/-! ### Vertices of call sites and names -/

section Sites

variable {s s' : CallSite} (hs : Equal s s')

include hs

theorem same_targetVertex (index : Nat) {d d' : Definition} (hd : Equal d d') :
  (targetVertex s index d).Same (targetVertex s' index d')
  := by
  obtain ⟨_, _, _, hrole, _⟩ := CallSite.beq_iff.mp hs
  obtain ⟨hpath, hname, hkind, hmodule, hstart, hstop⟩ := Definition.beq_iff.mp hd
  refine ⟨Element.beq_iff.mpr ?_, .some hd⟩
  refine ⟨hpath, CallSite.equal_position hs, ?_, hkind, hmodule, hrole, hstart, hstop⟩
  simp only [targetVertex, hname]

theorem same_targetVertices (index : Nat) {seen seen' : List (String × CallPosition)}
    (hseen : List.Forall₂ Equal seen seen') {ds ds' : List Definition} (hds : List.Forall₂ Equal ds ds') :
  List.Forall₂ Vertex.Same (targetVertices s index seen ds) (targetVertices s' index seen' ds')
  := by
  induction hds generalizing index seen seen' with
  | nil => exact .nil
  | @cons d d' ds ds' hd _ ih =>
    have hequal : Equal (d.name, d.position) (d'.name, d'.position) :=
      Bool.and_eq_true_iff.mpr ⟨beq_iff_eq.mpr (Definition.beq_iff.mp hd).2.1, Definition.equal_position hd⟩
    have hvertex := same_targetVertex hs index hd
    obtain ⟨_, _, hname, _, hmodule, _⟩ := Element.beq_iff.mp hvertex.element
    unfold targetVertices
    rw [contains_beq hequal hseen]
    split
    · exact ih _ hseen
    · dsimp only
      rw [hname, hmodule]
      split
      · exact ih _ (.cons hequal hseen)
      · exact .cons hvertex (ih _ (.cons hequal hseen))

/-- The vertices of equal call sites with equal targets. -/
theorem same_siteVertices {ds ds' : List Definition} (hds : List.Forall₂ Equal ds ds') :
  List.Forall₂ Vertex.Same (siteVertices s ds) (siteVertices s' ds')
  := by
  cases hds with
  | nil =>
    obtain ⟨_, hname, _, hrole, _⟩ := CallSite.beq_iff.mp hs
    refine .cons ⟨Element.beq_iff.mpr ?_, .none⟩ .nil
    refine ⟨rfl, CallSite.equal_position hs, ?_, rfl, rfl, hrole, rfl, rfl⟩
    simp only [placeholder, hname]
  | cons hd hds => exact same_targetVertices hs 0 .nil (.cons hd hds)

end Sites

/-- The vertices of equal names. -/
theorem same_nameVertices {ns ns' : List ScopeName} (h : List.Forall₂ Equal ns ns') :
  List.Forall₂ Vertex.Same (nameVertices ns) (nameVertices ns')
  := by
  unfold nameVertices
  rw [List.forall₂_map_left_iff, List.forall₂_map_right_iff]
  have hfiltered : List.Forall₂ Equal
      (ns.filter fun n => !Builtins.isIgnored n.definition.module n.definition.name)
      (ns'.filter fun n => !Builtins.isIgnored n.definition.module n.definition.name) := by
    apply List.rel_filter _ h
    intro n n' hn
    obtain ⟨_, hname, _, hmodule, _⟩ := Definition.beq_iff.mp (ScopeName.beq_iff.mp hn).2.2
    dsimp only
    rw [hname, hmodule]
  apply hfiltered.imp
  intro n n' hn
  obtain ⟨hrole, hcall, hdefinition⟩ := ScopeName.beq_iff.mp hn
  rw [hrole]
  exact .ofDefinition hdefinition hcall _

end CallGraph
