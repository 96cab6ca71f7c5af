import CallGraph.Definition
import Mathlib.Tactic.Tauto

/-!
# Equal paths

Two paths are equal when they have the same components, whatever their spelling.  This is an equivalence.
Stretches, elements and facts about source code are equal when all their parts are, paths as paths.
-/

namespace CallGraph

namespace Path

/-- Paths are equal exactly when their components are. -/
theorem beq_iff {a b : Path} :
  (a == b) = true ↔ a.components = b.components
  := beq_iff_eq (a := a.components)

instance : EquivBEq Path where
  rfl := beq_iff.mpr rfl
  symm h := beq_iff.mpr (beq_iff.mp h).symm
  trans h h' := beq_iff.mpr ((beq_iff.mp h).trans (beq_iff.mp h'))

/-- Paths that may be missing are equal when they have the same components. -/
theorem option_beq_iff {a b : Option Path} :
  (a == b) = true ↔ a.map components = b.map components
  := by
  cases a with
  | none =>
      cases b with
      | none => exact iff_of_true rfl rfl
      | some q => exact iff_of_false (by rintro ⟨⟩) (by rintro ⟨⟩)
  | some p =>
      cases b with
      | none => exact iff_of_false (by rintro ⟨⟩) (by rintro ⟨⟩)
      | some q =>
          change (p == q) = true ↔ _
          rw [beq_iff, Option.map_some, Option.map_some, Option.some.injEq]

instance : EquivBEq (Option Path) where
  rfl := option_beq_iff.mpr rfl
  symm h := option_beq_iff.mpr (option_beq_iff.mp h).symm
  trans h h' := option_beq_iff.mpr ((option_beq_iff.mp h).trans (option_beq_iff.mp h'))

end Path

/-- Stretches are equal when their paths, as paths, and their ends are. -/
theorem CallPosition.beq_iff {a b : CallPosition} :
  (a == b) = true ↔ (a.path == b.path) = true ∧ a.start = b.start ∧ a.stop = b.stop
  := by
  change (a.path == b.path && (a.start == b.start && a.stop == b.stop)) = true ↔ _
  simp only [Bool.and_eq_true, beq_iff_eq]

instance : EquivBEq CallPosition where
  rfl := CallPosition.beq_iff.mpr ⟨beq_self_eq_true _, rfl, rfl⟩
  symm h := by
    rw [CallPosition.beq_iff] at h ⊢
    exact ⟨BEq.symm h.1, h.2.1.symm, h.2.2.symm⟩
  trans h h' := by
    rw [CallPosition.beq_iff] at h h' ⊢
    exact ⟨BEq.trans h.1 h'.1, h.2.1.trans h'.2.1, h.2.2.trans h'.2.2⟩

/-- Elements are equal when their paths, as paths, and all else are. -/
theorem Element.beq_iff {a b : Element} :
  (a == b) = true ↔ (a.path == b.path) = true ∧ (a.callPosition == b.callPosition) = true ∧
    a.name = b.name ∧ a.kind = b.kind ∧ a.module = b.module ∧ a.role = b.role ∧ a.start = b.start ∧
    a.stop = b.stop
  := by
  change (a.name == b.name && (a.kind == b.kind && (a.module == b.module && (a.role == b.role &&
    (a.path == b.path && (a.callPosition == b.callPosition &&
      (a.start == b.start && a.stop == b.stop))))))) = true ↔ _
  simp only [Bool.and_eq_true, beq_iff_eq]
  tauto

instance : EquivBEq Element where
  rfl := Element.beq_iff.mpr ⟨beq_self_eq_true _, beq_self_eq_true _, rfl, rfl, rfl, rfl, rfl, rfl⟩
  symm h := by
    obtain ⟨hpath, hcall, hname, hkind, hmodule, hrole, hstart, hstop⟩ := Element.beq_iff.mp h
    exact Element.beq_iff.mpr ⟨BEq.symm hpath, BEq.symm hcall, hname.symm, hkind.symm, hmodule.symm, hrole.symm,
      hstart.symm, hstop.symm⟩
  trans h h' := by
    obtain ⟨hpath, hcall, hname, hkind, hmodule, hrole, hstart, hstop⟩ := Element.beq_iff.mp h
    obtain ⟨hpath', hcall', hname', hkind', hmodule', hrole', hstart', hstop'⟩ := Element.beq_iff.mp h'
    exact Element.beq_iff.mpr ⟨BEq.trans hpath hpath', BEq.trans hcall hcall', hname.trans hname', hkind.trans hkind',
      hmodule.trans hmodule', hrole.trans hrole', hstart.trans hstart', hstop.trans hstop'⟩

/-- Equal elements are at the same place, component by component. -/
theorem Element.components_of_beq {a b : Element} (h : (a == b) = true) :
  a.path.map Path.components = b.path.map Path.components
  :=
  Path.option_beq_iff.mp (Element.beq_iff.mp h).1

/-! ### Facts about source code -/

/-- Definitions are equal when their paths, as paths, and all else are. -/
theorem Definition.beq_iff {d e : Definition} :
  (d == e) = true ↔ (d.path == e.path) = true ∧ d.name = e.name ∧ d.kind = e.kind ∧ d.module = e.module ∧
    d.start = e.start ∧ d.stop = e.stop
  := by
  change (d.name == e.name && (d.kind == e.kind && (d.module == e.module && (d.path == e.path &&
    (d.start == e.start && d.stop == e.stop))))) = true ↔ _
  simp only [Bool.and_eq_true, beq_iff_eq]
  tauto

instance : EquivBEq Definition where
  rfl := Definition.beq_iff.mpr ⟨beq_self_eq_true _, rfl, rfl, rfl, rfl, rfl⟩
  symm h := by
    obtain ⟨hpath, hname, hkind, hmodule, hstart, hstop⟩ := Definition.beq_iff.mp h
    exact Definition.beq_iff.mpr
      ⟨BEq.symm hpath, hname.symm, hkind.symm, hmodule.symm, hstart.symm, hstop.symm⟩
  trans h h' := by
    obtain ⟨hpath, hname, hkind, hmodule, hstart, hstop⟩ := Definition.beq_iff.mp h
    obtain ⟨hpath', hname', hkind', hmodule', hstart', hstop'⟩ := Definition.beq_iff.mp h'
    exact Definition.beq_iff.mpr ⟨BEq.trans hpath hpath', hname.trans hname', hkind.trans hkind',
      hmodule.trans hmodule', hstart.trans hstart', hstop.trans hstop'⟩

/-- Usages are equal when their paths, as paths, and all else are. -/
theorem Usage.beq_iff {u v : Usage} :
  (u == v) = true ↔ (u.path == v.path) = true ∧ u.name = v.name ∧ u.module = v.module ∧ u.start = v.start ∧
    u.stop = v.stop
  := by
  change (u.name == v.name && (u.module == v.module && (u.path == v.path &&
    (u.start == v.start && u.stop == v.stop)))) = true ↔ _
  simp only [Bool.and_eq_true, beq_iff_eq]
  tauto

instance : EquivBEq Usage where
  rfl := Usage.beq_iff.mpr ⟨beq_self_eq_true _, rfl, rfl, rfl, rfl⟩
  symm h := by
    obtain ⟨hpath, hname, hmodule, hstart, hstop⟩ := Usage.beq_iff.mp h
    exact Usage.beq_iff.mpr ⟨BEq.symm hpath, hname.symm, hmodule.symm, hstart.symm, hstop.symm⟩
  trans h h' := by
    obtain ⟨hpath, hname, hmodule, hstart, hstop⟩ := Usage.beq_iff.mp h
    obtain ⟨hpath', hname', hmodule', hstart', hstop'⟩ := Usage.beq_iff.mp h'
    exact Usage.beq_iff.mpr ⟨BEq.trans hpath hpath', hname.trans hname', hmodule.trans hmodule',
      hstart.trans hstart', hstop.trans hstop'⟩

/-- Call sites are equal when their paths, as paths, and all else are. -/
theorem CallSite.beq_iff {s t : CallSite} :
  (s == t) = true ↔ (s.path == t.path) = true ∧ s.name = t.name ∧ s.qualifier = t.qualifier ∧ s.role = t.role ∧
    s.start = t.start ∧ s.stop = t.stop
  := by
  change (s.name == t.name && (s.qualifier == t.qualifier && (s.role == t.role && (s.path == t.path &&
    (s.start == t.start && s.stop == t.stop))))) = true ↔ _
  simp only [Bool.and_eq_true, beq_iff_eq]
  tauto

/-- Names in a scope are equal when their positions and their definitions are, and their roles. -/
theorem ScopeName.beq_iff {n m : ScopeName} :
  (n == m) = true ↔ n.role = m.role ∧ (n.callPosition == m.callPosition) = true ∧
    (n.definition == m.definition) = true
  := by
  change (n.role == m.role && (n.callPosition == m.callPosition && n.definition == m.definition)) = true ↔ _
  simp only [Bool.and_eq_true, beq_iff_eq]

end CallGraph
