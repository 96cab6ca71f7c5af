import CallGraph.Proofs.Source.Records
import Mathlib.Logic.Relation

/-!
# Looking places up in outlines

Every function or class of an outline stands in a scope with a smaller number, so the way outwards from a scope
meets each scope around it once, the nearer ones first.  If its tree is sound, no two names of an outline start at
the same place, and no two functions or classes have their names there.  So what is looked up by its place is what
was recorded there, and a definition of the file opens the scope that it is made from.
-/

namespace CallGraph.Source

/-! ### Outlines -/

namespace Outline

/-- What holds of all outlines: the file is the scope around all others, which are functions and classes and have
their names among the names, and all that is recorded stands in a scope. -/
structure IsRegular (o : Outline) : Prop where
  root : ∃ file, o.scopes[0]? = some file ∧ file.kind = .module ∧ file.parent = none
  inner : ∀ i s, o.scopes[i + 1]? = some s →
    s.kind ≠ .module ∧ ∃ parent, s.parent = some parent ∧ parent ≤ i
  name : ∀ n ∈ o.names, n.scope < o.scopes.length
  site : ∀ s ∈ o.sites, s.scope < o.scopes.length
  introduced : ∀ i s, o.scopes[i + 1]? = some s → ∃ n ∈ o.names, n.start = s.start ∧ n.context = .definition

/-- The names of an outline start at different places, and so do those of its functions and classes. -/
structure IsDistinct (o : Outline) : Prop where
  names : (o.names.map NameRef.start).Nodup
  scopes : ((o.scopes.drop 1).map Scope.start).Nodup

/-- Entries of which at most one is at each place are at different places. -/
theorem nodup_of_countP_le_one
    {α : Type} {entries : List α} {start : α → Location}
    (h : ∀ place, entries.countP (start · = place) ≤ 1) :
  (entries.map start).Nodup
  := by
  rw [List.nodup_iff_count]
  intro place
  rw [List.count, List.countP_map]
  simpa [Function.comp_def, beq_eq_decide] using h place

/-- Of entries at different places, each is the one that is found at its place. -/
theorem find?_of_nodup
    {α : Type} {entries : List α} {start : α → Location} (h : (entries.map start).Nodup) {x : α}
    (hx : x ∈ entries) :
  entries.find? (start · = start x) = some x
  := by
  induction entries with
  | nil => cases hx
  | cons y ys ih =>
    rw [List.map_cons, List.nodup_cons] at h
    rcases List.mem_cons.mp hx with rfl | hx
    · simp
    · have hne : start y ≠ start x := by
        intro heq
        exact h.1 (heq ▸ List.mem_map_of_mem hx)
      rw [List.find?_cons_of_neg (by simpa using hne)]
      exact ih h.2 hx

/-- Of entries at different places, each is found at its place where it stands. -/
theorem findIdx?_of_nodup
    {α : Type} {entries : List α} {start : α → Location} (h : (entries.map start).Nodup) {i : Nat} {x : α}
    (hx : entries[i]? = some x) :
  entries.findIdx? (start · = start x) = some i
  := by
  induction entries generalizing i with
  | nil => cases hx
  | cons y ys ih =>
    rw [List.map_cons, List.nodup_cons] at h
    cases i with
    | zero =>
      cases hx
      simp [List.findIdx?_cons]
    | succ i =>
      have hne : start y ≠ start x := by
        intro heq
        exact h.1 (heq ▸ List.mem_map_of_mem (List.mem_of_getElem? hx))
      simp [List.findIdx?_cons, hne, ih h.2 hx]

/-- An entry of a reversed list has behind it, in the list, those that are before it. -/
theorem suffix_of_reverse
    {α : Type} {xs : List α} {i : Nat} {x : α} (h : xs.reverse[i]? = some x) :
  ∃ before, x :: before <:+ xs ∧ before.length = i
  := by
  obtain ⟨hi, rfl⟩ := List.getElem?_eq_some_iff.mp h
  refine ⟨(xs.reverse.take i).reverse, ⟨(xs.reverse.drop (i + 1)).reverse, ?_⟩, ?_⟩
  · have hsplit : xs.reverse.take i ++ xs.reverse[i] :: xs.reverse.drop (i + 1) = xs.reverse := by
      rw [List.getElem_cons_drop, List.take_append_drop]
    have hreverse := congrArg List.reverse hsplit
    simpa using hreverse
  · simp only [List.length_reverse, List.length_take] at hi ⊢
    omega

/-- The names of an outline are those collected on the walk. -/
theorem mem_names_ofTree {path : Path} {module : String} {source : List Char} {tree : Tree} {n : NameRef} :
  n ∈ (ofTree path module source tree).names ↔
    n ∈ (tree.visit ⟨source, module, path.fileStem? == some "__init__"⟩ {} {}).names
  := by
  exact (List.mergeSort_perm _ _).mem_iff.trans List.mem_reverse

theorem mem_sites_ofTree {path : Path} {module : String} {source : List Char} {tree : Tree} {s : Site} :
  s ∈ (ofTree path module source tree).sites ↔
    s ∈ (tree.visit ⟨source, module, path.fileStem? == some "__init__"⟩ {} {}).sites
  := by
  exact (List.mergeSort_perm _ _).mem_iff.trans List.mem_reverse

theorem isRegular_ofTree (path : Path) (module : String) (source : List Char) (tree : Tree) :
  (ofTree path module source tree).IsRegular
  := by
  let file : FileFacts := ⟨source, module, path.fileStem? == some "__init__"⟩
  let f := tree.visit file {} {}
  have hscoped : f.IsScoped := (tree.isScoped_visit file {} {} (Nat.le_refl _) Findings.isScoped_empty).1
  constructor
  case root => exact ⟨_, rfl, rfl, rfl⟩
  case inner =>
    intro i s hs
    have hs' : f.scopes.reverse[i]? = some s := hs
    obtain ⟨before, hbefore, hlength⟩ := suffix_of_reverse hs'
    obtain ⟨parent, hparent, hle⟩ := hscoped.parent s before hbefore
    refine ⟨hscoped.kind s (hbefore.subset List.mem_cons_self), parent, hparent, ?_⟩
    omega
  case name =>
    intro n hn
    have hscope := hscoped.name n (mem_names_ofTree.mp hn)
    simp only [ofTree, List.length_cons, List.length_reverse]
    exact Nat.lt_succ_of_le hscope
  case site =>
    intro s hs
    have hscope := hscoped.site s (mem_sites_ofTree.mp hs)
    simp only [ofTree, List.length_cons, List.length_reverse]
    exact Nat.lt_succ_of_le hscope
  case introduced =>
    intro i s hs
    have hmem : s ∈ f.scopes := List.mem_reverse.mp (List.mem_of_getElem? hs)
    obtain ⟨n, hn, hfields⟩ := tree.introduces_visit file {} {} (by simp [Findings.Introduces]) s hmem
    exact ⟨n, mem_names_ofTree.mpr hn, hfields⟩

theorem isDistinct_ofTree
    (path : Path) (module : String) (source : List Char) {tree : Tree} (htree : tree.IsSound) :
  (ofTree path module source tree).IsDistinct
  := by
  let file : FileFacts := ⟨source, module, path.fileStem? == some "__init__"⟩
  let f := tree.visit file {} {}
  have hscoped : f.IsScoped := (tree.isScoped_visit file {} {} (Nat.le_refl _) Findings.isScoped_empty).1
  have hnames (place : Location) : f.namesAt place ≤ 1 := by
    rw [Tree.namesAt_visit file htree.named]
    exact startsAt_le_one place htree.inOrder
  constructor
  case names =>
    apply ((List.mergeSort_perm _ _).trans f.names.reverse_perm |>.map NameRef.start).nodup_iff.mpr
    exact nodup_of_countP_le_one hnames
  case scopes =>
    apply (f.scopes.reverse_perm.map Scope.start).nodup_iff.mpr
    exact nodup_of_countP_le_one fun place => Nat.le_trans (hscoped.named place) (hnames place)

namespace IsDistinct

variable {o : Outline} (ho : o.IsDistinct)

include ho

/-- A name is what is found at its place. -/
theorem nameAt {n : NameRef} (hn : n ∈ o.names) :
  o.nameAt n.start = some n
  := by
  exact find?_of_nodup ho.names hn

/-- A function or class is what is found by the place of its name. -/
theorem scopeNamedAt {i : Nat} {s : Scope} (hs : o.scopes[i + 1]? = some s) :
  o.scopeNamedAt s.start = some (i + 1)
  := by
  have hs' : (o.scopes.drop 1)[i]? = some s := by
    rw [List.getElem?_drop, Nat.add_comm]
    exact hs
  rw [Outline.scopeNamedAt, findIdx?_of_nodup ho.scopes hs']
  rfl

end IsDistinct

/-! ### Scopes around scopes -/

variable {o : Outline}

/-- A scope stands directly in another one. -/
def StandsIn (o : Outline) (inner outer : Nat) : Prop :=
  ∃ s, o.scopes[inner]? = some s ∧ s.parent = some outer

/-- A scope is this one or stands, at whatever depth, in another one. -/
def Within (o : Outline) : Nat → Nat → Prop :=
  Relation.ReflTransGen o.StandsIn

theorem StandsIn.eq {i j k : Nat} (hj : o.StandsIn i j) (hk : o.StandsIn i k) :
  j = k
  := by
  obtain ⟨s, hs, hsj⟩ := hj
  obtain ⟨t, ht, htk⟩ := hk
  cases hs.symm.trans ht
  exact Option.some.inj (hsj.symm.trans htk)

namespace IsRegular

variable (ho : o.IsRegular)

include ho

theorem lt_of_standsIn {i j : Nat} (h : o.StandsIn i j) :
  j < i
  := by
  obtain ⟨s, hs, hj⟩ := h
  cases i with
  | zero =>
    obtain ⟨file, hfile, _, hroot⟩ := ho.root
    cases hs.symm.trans hfile
    cases hroot.symm.trans hj
  | succ i =>
    obtain ⟨_, parent, hparent, hle⟩ := ho.inner i s hs
    cases hparent.symm.trans hj
    exact Nat.lt_succ_of_le hle

theorem le_of_within {i j : Nat} (h : o.Within i j) :
  j ≤ i
  := by
  induction h with
  | refl => exact Nat.le_refl i
  | tail _ hstep ih => exact Nat.le_of_lt (Nat.lt_of_lt_of_le (ho.lt_of_standsIn hstep) ih)

theorem within_antisymm {i j : Nat} (h : o.Within i j) (h' : o.Within j i) :
  i = j
  :=
  Nat.le_antisymm (ho.le_of_within h') (ho.le_of_within h)

theorem standsIn_lt_length {i j : Nat} (h : o.StandsIn i j) :
  j < o.scopes.length
  := by
  obtain ⟨_, hs, _⟩ := id h
  exact Nat.lt_trans (ho.lt_of_standsIn h) (List.getElem?_eq_some_iff.mp hs).1

/-- The way outwards is as long as it needs to be. -/
theorem chainFrom_eq {fuel i : Nat} (hfuel : i < fuel) (hi : i < o.scopes.length) :
  o.chainFrom fuel (some i) = o.chain i
  := by
  have hsame (i : Nat) (hi : i < o.scopes.length) :
      ∀ fuel fuel', i < fuel → i < fuel' → o.chainFrom fuel (some i) = o.chainFrom fuel' (some i) := by
    induction i using Nat.strongRecOn with
    | _ i ih =>
      intro fuel fuel' hfuel hfuel'
      obtain ⟨fuel, rfl⟩ := Nat.exists_eq_succ_of_ne_zero (Nat.ne_of_gt (Nat.zero_lt_of_lt hfuel))
      obtain ⟨fuel', rfl⟩ := Nat.exists_eq_succ_of_ne_zero (Nat.ne_of_gt (Nat.zero_lt_of_lt hfuel'))
      rw [chainFrom, chainFrom]
      cases hparent : o.scopes[i]?.bind (·.parent) with
      | none => cases fuel <;> cases fuel' <;> rfl
      | some j =>
        have hstep : o.StandsIn i j := Option.bind_eq_some_iff.mp hparent
        have hlt := ho.lt_of_standsIn hstep
        rw [ih j hlt (ho.standsIn_lt_length hstep) fuel fuel' (by omega) (by omega)]
  exact hsame i hi fuel _ hfuel hi

theorem chain_zero :
  o.chain 0 = [0]
  := by
  obtain ⟨file, hfile, _, hroot⟩ := ho.root
  have hlength := (List.getElem?_eq_some_iff.mp hfile).1
  rw [← ho.chainFrom_eq Nat.zero_lt_two hlength, chainFrom, hfile, Option.bind_some, hroot]
  rfl

theorem chain_eq_cons {i j : Nat} (h : o.StandsIn i j) :
  o.chain i = i :: o.chain j
  := by
  have hj := ho.standsIn_lt_length h
  have hlt := ho.lt_of_standsIn h
  obtain ⟨s, hs, hparent⟩ := h
  have hi := (List.getElem?_eq_some_iff.mp hs).1
  rw [← ho.chainFrom_eq (Nat.lt_succ_self i) hi, chainFrom, hs, Option.bind_some, hparent, ho.chainFrom_eq hlt hj]

/-- On the way outwards are the scopes around. -/
theorem mem_chain_iff {i j : Nat} (hi : i < o.scopes.length) :
  j ∈ o.chain i ↔ o.Within i j
  := by
  induction i using Nat.strongRecOn with
  | _ i ih =>
    cases i with
    | zero =>
      rw [ho.chain_zero, List.mem_singleton]
      constructor
      · rintro rfl
        exact .refl
      · exact fun h => Nat.le_zero.mp (ho.le_of_within h)
    | succ i =>
      obtain ⟨_, parent, hparent, hle⟩ := ho.inner i _ (List.getElem?_eq_getElem hi)
      have hstep : o.StandsIn (i + 1) parent := ⟨_, List.getElem?_eq_getElem hi, hparent⟩
      rw [ho.chain_eq_cons hstep, List.mem_cons, ih parent (Nat.lt_succ_of_le hle) (ho.standsIn_lt_length hstep)]
      constructor
      · rintro (rfl | h)
        · exact .refl
        · exact .head hstep h
      · intro h
        rcases Relation.ReflTransGen.cases_head h with rfl | ⟨k, hk, h⟩
        · exact .inl rfl
        · exact .inr (hstep.eq hk ▸ h)

/-- On the way outwards, the nearer scopes come first. -/
theorem pairwise_chain {i : Nat} (hi : i < o.scopes.length) :
  (o.chain i).Pairwise o.Within
  := by
  induction i using Nat.strongRecOn with
  | _ i ih =>
    cases i with
    | zero =>
      rw [ho.chain_zero]
      exact List.pairwise_singleton ..
    | succ i =>
      obtain ⟨_, parent, hparent, hle⟩ := ho.inner i _ (List.getElem?_eq_getElem hi)
      have hstep : o.StandsIn (i + 1) parent := ⟨_, List.getElem?_eq_getElem hi, hparent⟩
      have hlength := ho.standsIn_lt_length hstep
      rw [ho.chain_eq_cons hstep, List.pairwise_cons]
      refine ⟨fun j hj => .head hstep ((ho.mem_chain_iff hlength).mp hj), ?_⟩
      exact ih parent (Nat.lt_succ_of_le hle) hlength

end IsRegular

end Outline

end CallGraph.Source
