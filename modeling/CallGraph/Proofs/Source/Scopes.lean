import CallGraph.Proofs.Source.Readable
import Mathlib.Data.List.Perm.Basic

/-!
# Scopes and their call sites

The scopes of an outline make a tree with the file at its root: every other scope stands in one with a smaller
number, so that the way outwards ends at the file.  A scope is found again by its definition.  Asked for the call
sites of the definitions of a file, the index hands out every site of the file once, those of a scope in the order
in which they stand in the file, whatever it was asked before and whatever search path is in use.
-/

namespace CallGraph.Source

variable {files : FileTree} {searchPath : List Path}

/-- Entries with numbers below a bound are shared out by their numbers, each once. -/
theorem flatMap_filter_perm {α : Type} (number : α → Nat) (entries : List α) (bound : Nat) :
  ((List.range bound).flatMap fun i => entries.filter (number · == i)).Perm (entries.filter (number · < bound))
  := by
  induction bound with
  | zero => simp
  | succ bound ih =>
    -- those below the bound, and behind them those at the bound
    have hbelow : (entries.filter (number · < bound + 1)).filter (number · < bound)
        = entries.filter (number · < bound) := by
      rw [List.filter_filter]
      apply List.filter_congr
      intro x _
      rw [Bool.eq_iff_iff]
      simp
      omega
    have hat : (entries.filter (number · < bound + 1)).filter (fun x => !(number x < bound : Bool))
        = entries.filter (number · == bound) := by
      rw [List.filter_filter]
      apply List.filter_congr
      intro x _
      rw [Bool.eq_iff_iff]
      simp
      omega
    rw [List.range_succ, List.flatMap_append, List.flatMap_singleton]
    have hsplit := List.filter_append_perm (number · < bound) (entries.filter (number · < bound + 1))
    rw [hbelow, hat] at hsplit
    exact (ih.append_right _).trans hsplit

namespace Outline

variable {o : Outline}

/-- The sites directly inside a scope. -/
def sitesIn (o : Outline) (scope : Nat) : List Site :=
  o.sites.filter (·.scope == scope)

/-- Scopes that make a tree with the file at its root, each found again by the definition that opens it. -/
structure IsRooted (o : Outline) : Prop where
  root : ∃ file, o.scopes[0]? = some file ∧ file.parent = none
  inner : ∀ i s, i ≠ 0 → o.scopes[i]? = some s → ∃ parent, s.parent = some parent ∧ parent < i
  ends : ∀ i < o.scopes.length, (o.chain i).getLast? = some 0
  found : ∀ i < o.scopes.length, ∃ d, o.definition? i = some d ∧ o.scopeOf d = some i

/-- Sites for each scope of an outline, those of the outline, each once and in order. -/
structure IsSharedOut (o : Outline) (shares : Nat → List Site) : Prop where
  complete : ((List.range o.scopes.length).flatMap shares).Perm o.sites
  ordered : ∀ i, (shares i).Pairwise fun s s' => s.start.notAfter s'.start = true
  apart : ∀ i j s, s ∈ shares i → s ∈ shares j → i = j

namespace IsRegular

variable (ho : o.IsRegular)

include ho

theorem isRooted (hdistinct : o.IsDistinct) :
  o.IsRooted
  := by
  constructor
  case root =>
    obtain ⟨file, hfile, _, hparent⟩ := ho.root
    exact ⟨file, hfile, hparent⟩
  case inner =>
    intro i s hi hs
    obtain ⟨i, rfl⟩ := Nat.exists_eq_succ_of_ne_zero hi
    obtain ⟨_, parent, hparent, hle⟩ := ho.inner i s hs
    exact ⟨parent, hparent, Nat.lt_succ_of_le hle⟩
  case ends => exact fun i hi => ho.getLast?_chain hi
  case found =>
    intro i hi
    have hd : o.definition? i = some (o.definitionOf o.scopes[i]) := by
      rw [definition?, List.getElem?_eq_getElem hi, Option.map_some]
    exact ⟨_, hd, scopeOf_definition? ho hdistinct hd⟩

/-- The sites of the scopes, one scope after the other, are all sites. -/
theorem sitesIn_perm :
  ((List.range o.scopes.length).flatMap o.sitesIn).Perm o.sites
  := by
  have hall : o.sites.filter (·.scope < o.scopes.length) = o.sites := by
    rw [List.filter_eq_self]
    intro s hs
    exact decide_eq_true (ho.site s hs)
  have hperm := flatMap_filter_perm Site.scope o.sites o.scopes.length
  rwa [hall] at hperm

/-- The sites of the scopes are shared out if all sites are in order. -/
theorem isSharedOut_sitesIn (horder : o.sites.Pairwise fun s s' => s.start.notAfter s'.start = true) :
  o.IsSharedOut o.sitesIn
  := by
  constructor
  case complete => exact ho.sitesIn_perm
  case ordered => exact fun i => horder.filter _
  case apart =>
    intro i j s hi hj
    rw [sitesIn, List.mem_filter, beq_iff_eq] at hi hj
    exact hi.2.symm.trans hj.2

end IsRegular

end Outline

/-! ### Answers -/

section Answers

variable [Parser]

/-- The index hands out the same call sites as a survey of the files as they are, in the same spelling. -/
theorem mirrors_callSites_eq (d : Definition) :
  Mirrors files searchPath Eq ((indexed files searchPath).callSites d) ((fresh files searchPath).callSites d)
  := by
  unfold Survey.callSites
  split
  · exact .pure rfl
  · rename_i path _
    apply (mirrors_load (.refl path)).bind
    intro o p ho
    apply (mirrors_scopeIn ho (.refl d)).bind
    rintro scope _ rfl
    rw [ho.sites]
    exact .pure rfl

variable [SoundParser] {path : Path} {o : Outline} (ho : outlineNow files searchPath path = .ok o)

include ho

/-- A survey of the files as they are finds the sites of a scope for the definition that opens it, under any search
path. -/
theorem callSites_fresh (searchPath' : List Path) {i : Nat} {d : Definition} (hd : o.definition? i = some d) :
  (fresh files searchPath').callSites d = .ok ((o.sitesIn i).map (Survey.callSiteOf path))
  := by
  have hscope := Outline.scopeOf_definition? (isRegular_of_outlineNow ho) (isDistinct_of_outlineNow ho) hd
  have hpath : d.path = some path := by
    obtain ⟨s, _, rfl⟩ := Option.map_eq_some_iff.mp hd
    exact congrArg some (path_of_outlineNow ho)
  obtain ⟨o', ho', hscopes, hsites⟩ := outlineNow_searchPath ho searchPath'
  have hscopeIn : Survey.scopeIn (m := Id) o' d = .ok i := by
    rw [Survey.scopeIn, hscopes, hscope]
    rfl
  unfold Survey.callSites
  rw [hpath]
  dsimp only
  rw [outline_bind ho', hscopeIn, hsites]
  rfl

theorem Index.Reached.callSites_eq {x : Index} (hx : x.Reached files) {i : Nat} {d : Definition}
    (hd : o.definition? i = some d) :
  (Index.answer files (.callSites d) x).1 = .ok ((o.sitesIn i).map (Survey.callSiteOf path))
  := by
  have hmirrors : Mirrors files x.searchPath Eq ((indexed files x.searchPath).callSites d)
      ((fresh files x.searchPath).callSites d) :=
    mirrors_callSites_eq d
  obtain ⟨hout, _⟩ := hmirrors (· = files) rfl (by rintro _ rfl; exact .refl _) x ⟨hx.isCurrent, rfl⟩
  rw [callSites_fresh ho x.searchPath hd] at hout
  change Outcome files Eq (Index.answer files (.callSites d) x).1 _ at hout
  generalize (Index.answer files (.callSites d) x).1 = r at hout
  cases hout with
  | ok h => rw [h]

/-- The scopes of a file are rooted in it, and the index hands out every site of the file for the definition of
one scope, whatever it was asked before. -/
theorem Index.Reached.callSites_sharedOut {x : Index} (hx : x.Reached files) :
  o.IsRooted ∧ ∃ shares, o.IsSharedOut shares ∧
    ∀ i d, o.definition? i = some d →
      (Index.answer files (.callSites d) x).1 = .ok ((shares i).map (Survey.callSiteOf path))
  := by
  have hregular := isRegular_of_outlineNow ho
  refine ⟨hregular.isRooted (isDistinct_of_outlineNow ho), o.sitesIn, ?_, fun _ _ hd => hx.callSites_eq ho hd⟩
  apply hregular.isSharedOut_sitesIn
  obtain ⟨source, _, rfl⟩ := exists_text_of_outlineNow ho
  exact Location.pairwise_mergeSort_notAfter _ Site.start

end Answers

section Nested

open scoped Grammar

/-- The text with a function inside another one, of which each function has its own sites. -/
theorem Index.Reached.callSites_sharedOut_nested :
  nestedOutline.IsRooted ∧ ∃ shares, nestedOutline.IsSharedOut shares ∧
    ∀ i < 4, ∃ d, nestedOutline.definition? i = some d ∧
      (Index.answer nested (.callSites d) {}).1 = .ok ((shares i).map (Survey.callSiteOf ⟨"/tmp/w/m.py"⟩))
  := by
  have hempty : Index.Reached nested {} := .empty
  obtain ⟨hrooted, shares, hshared, hanswers⟩ := Index.Reached.callSites_sharedOut outlineNow_nested hempty
  refine ⟨hrooted, shares, hshared, fun i hi => ?_⟩
  have hlength : nestedOutline.scopes.length = 4 := by
    have hrecorded := congrArg List.length recorded_nested.1
    rwa [List.length_map] at hrecorded
  obtain ⟨d, hd, _⟩ := hrooted.found i (hlength ▸ hi)
  exact ⟨d, hd, hanswers i d hd⟩

end Nested

end CallGraph.Source
