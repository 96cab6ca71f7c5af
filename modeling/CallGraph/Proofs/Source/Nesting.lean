import CallGraph.Proofs.Source.Layout
import CallGraph.Proofs.Source.Outline
import CallGraph.Source.Grammar

/-!
# Scopes within scopes

A walk puts each name and each site into the scope of the last definition whose body holds the place, which is the
innermost one, and each definition into the scope of the place where it starts.  So the extents of the scopes of an
outline are nested as the scopes are.
-/

namespace CallGraph.Source

/-! ### The scope that a place belongs to -/

/-- The number of the last definition with a body that holds a place, or another scope if there is none.  The
definitions have the numbers behind those that were counted before. -/
def ownerIn (place : Location) : List Opening → Nat → Nat → Nat
  | [], _, scope => scope
  | d :: rest, count, scope => ownerIn place rest (count + 1) (if d.body.Holds place then count + 1 else scope)

section Owners

variable {place : Location} {ds es : List Opening} (count scope : Nat)

theorem ownerIn_append :
  ownerIn place (ds ++ es) count scope = ownerIn place es (count + ds.length) (ownerIn place ds count scope)
  := by
  induction ds generalizing count scope with
  | nil => rfl
  | cons d ds ih =>
    rw [List.cons_append, ownerIn, ownerIn, ih, List.length_cons, Nat.add_assoc, Nat.add_comm 1]

theorem ownerIn_of_not_holds (h : ∀ d ∈ ds, ¬ d.body.Holds place) :
  ownerIn place ds count scope = scope
  := by
  induction ds generalizing count scope with
  | nil => rfl
  | cons d ds ih =>
    rw [List.forall_mem_cons] at h
    rw [ownerIn, if_neg h.1, ih _ _ h.2]

theorem ownerIn_congr {place' : Location} (h : ∀ d ∈ ds, d.body.Holds place ↔ d.body.Holds place') :
  ownerIn place ds count scope = ownerIn place' ds count scope
  := by
  induction ds generalizing count scope with
  | nil => rfl
  | cons d ds ih =>
    rw [List.forall_mem_cons] at h
    rw [ownerIn, ownerIn, ih _ _ h.2]
    simp only [h.1]

/-- The owner of a place is the last definition with a body that holds it. -/
theorem ownerIn_cases (place : Location) (ds : List Opening) (count scope : Nat) :
  (ownerIn place ds count scope = scope ∧ ∀ d ∈ ds, ¬ d.body.Holds place) ∨
    ∃ i d, ds[i]? = some d ∧ d.body.Holds place ∧ ownerIn place ds count scope = count + i + 1 ∧
      ∀ j e, ds[j]? = some e → e.body.Holds place → j ≤ i
  := by
  induction ds generalizing count scope with
  | nil => exact .inl ⟨rfl, by simp⟩
  | cons d ds ih =>
    rw [ownerIn]
    rcases ih (count + 1) (if d.body.Holds place then count + 1 else scope) with ⟨howner, hnone⟩ | hlast
    · rw [howner]
      by_cases hd : d.body.Holds place
      · refine .inr ⟨0, d, rfl, hd, if_pos hd, ?_⟩
        intro j e he hholds
        cases j with
        | zero => exact Nat.le_refl 0
        | succ j => exact absurd hholds (hnone e (List.mem_of_getElem? he))
      · exact .inl ⟨if_neg hd, List.forall_mem_cons.mpr ⟨hd, hnone⟩⟩
    · obtain ⟨i, e, he, hholds, howner, hbehind⟩ := hlast
      refine .inr ⟨i + 1, e, he, hholds, by rw [howner]; omega, ?_⟩
      intro j e' he' hholds'
      cases j with
      | zero => exact Nat.zero_le _
      | succ j => exact Nat.succ_le_succ (hbehind j e' he' hholds')

end Owners

/-! ### Walks -/

/-- The scope that a definition opens in another one. -/
def Opening.scope (d : Opening) (parent : Nat) : Scope :=
  { name := d.name.1, kind := d.kind, parent := some parent
    start := d.name.2.start.location, stop := d.name.2.stop.location
    spanStart := d.whole.start.location, spanStop := d.whole.stop.location }

namespace Findings

/-- A name or a site was recorded at a place in a scope. -/
def Places (f : Findings) (scope : Nat) (place : Location) : Prop :=
  (∃ n ∈ f.names, n.scope = scope ∧ n.start = place) ∨ ∃ s ∈ f.sites, s.scope = scope ∧ s.start = place

/-- Recorded in addition were the scopes of some definitions, and names and sites at some leaves, all of them in the
scope that their place belongs to.  What is in no definition is in the scope around. -/
structure Walked (f g : Findings) (ds : List Opening) (leaves : List Piece) (around : Location → Nat) : Prop where
  scopes : g.scopes = (ds.map fun d => d.scope (ownerIn d.whole.start.location ds f.scopes.length
    (around d.whole.start.location))).reverse ++ f.scopes
  placed : ∀ scope place, g.Places scope place → f.Places scope place ∨
    (∃ p ∈ leaves, p.2.start.location = place) ∧ scope = ownerIn place ds f.scopes.length (around place)

theorem Walked.refl (f : Findings) (leaves : List Piece) (around : Location → Nat) :
  f.Walked f [] leaves around
  := by
  constructor
  · rfl
  · exact fun scope place h => .inl h

section Walks

variable {f g h : Findings} {ds : List Opening} {leaves : List Piece} {around : Location → Nat}

theorem Walked.congr
    {around' : Location → Nat} (hwalk : f.Walked g ds leaves around)
    (hds : ∀ d ∈ ds, around' d.whole.start.location = around d.whole.start.location)
    (hleaves : ∀ p ∈ leaves, around' p.2.start.location = around p.2.start.location) :
  f.Walked g ds leaves around'
  := by
  constructor
  · have hsame : ds.map (fun d => d.scope (ownerIn d.whole.start.location ds f.scopes.length
        (around' d.whole.start.location))) = ds.map fun d => d.scope (ownerIn d.whole.start.location ds
        f.scopes.length (around d.whole.start.location)) := by
      apply List.map_congr_left
      intro d hd
      rw [hds d hd]
    rw [hwalk.scopes, hsame]
  · intro scope place hplaces
    rcases hwalk.placed scope place hplaces with hplaces | ⟨⟨p, hp, rfl⟩, howner⟩
    · exact .inl hplaces
    · rw [← hleaves p hp] at howner
      exact .inr ⟨⟨p, hp, rfl⟩, howner⟩

theorem Walked.mono {leaves' : List Piece} (hwalk : f.Walked g ds leaves around) (hleaves : leaves ⊆ leaves') :
  f.Walked g ds leaves' around
  := by
  constructor
  · exact hwalk.scopes
  · intro scope place hplaces
    rcases hwalk.placed scope place hplaces with hplaces | ⟨⟨p, hp, heq⟩, howner⟩
    · exact .inl hplaces
    · exact .inr ⟨⟨p, hleaves hp, heq⟩, howner⟩

/-- A walk of a part and then one of the parts behind it make a walk of them all. -/
theorem Walked.append
    {label : Label} {t : Tree} {rest : Parts} (hparts : (Parts.cons label t rest).AreLaidOut)
    (hfg : f.Walked g t.openings t.leaves around) (hgh : g.Walked h rest.openings rest.leaves around) :
  f.Walked h (t.openings ++ rest.openings) (t.leaves ++ rest.leaves) around
  := by
  have hlength : g.scopes.length = f.scopes.length + t.openings.length := by
    rw [hfg.scopes, List.length_append, List.length_reverse, List.length_map, Nat.add_comm]
  -- what is in one part is in no body of the other parts
  have hbefore {place : Location} (hplace : place.index < t.extent.high) (scope : Nat) :
      ownerIn place (t.openings ++ rest.openings) f.scopes.length scope
        = ownerIn place t.openings f.scopes.length scope := by
    rw [ownerIn_append]
    exact ownerIn_of_not_holds _ _ fun d hd => hparts.not_holds_of_before hplace hd
  have hbehind {part : Label × Tree} (hpart : part ∈ rest.toList) {place : Location}
      (hplace : part.2.extent.low ≤ place.index) (scope : Nat) :
      ownerIn place (t.openings ++ rest.openings) f.scopes.length scope
        = ownerIn place rest.openings g.scopes.length scope := by
    rw [ownerIn_append, hlength]
    congr 1
    exact ownerIn_of_not_holds _ _ fun d hd => hparts.not_holds_of_behind hpart hplace hd
  constructor
  · rw [hgh.scopes, hfg.scopes, ← List.append_assoc, ← List.reverse_append, List.map_append]
    congr 3
    · apply List.map_congr_left
      intro d hd
      have hlong := hparts.head.areNested.long d hd
      rw [hbefore (Nat.lt_of_lt_of_le hlong (hparts.head.isOrderly.opening_inside hd).2)]
    · rw [← hfg.scopes]
      apply List.map_congr_left
      intro d hd
      rw [Parts.openings_eq, List.mem_flatMap] at hd
      obtain ⟨part, hpart, hd⟩ := hd
      rw [hbehind hpart ((hparts.tail.each part hpart).isOrderly.opening_inside hd).1]
  · intro scope place hplaces
    rcases hgh.placed scope place hplaces with hplaces | ⟨⟨p, hp, rfl⟩, howner⟩
    · rcases hfg.placed scope place hplaces with hplaces | ⟨⟨p, hp, rfl⟩, howner⟩
      · exact .inl hplaces
      · have hleaf := hparts.head.isOrderly.leaf_inside hp
        rw [← hbefore (Nat.lt_of_lt_of_le hleaf.2.1 hleaf.2.2)] at howner
        exact .inr ⟨⟨p, List.mem_append_left _ hp, rfl⟩, howner⟩
    · refine .inr ⟨⟨p, List.mem_append_right _ hp, rfl⟩, ?_⟩
      rw [Parts.leaves_eq, List.mem_flatMap] at hp
      obtain ⟨part, hpart, hp⟩ := hp
      rw [howner, hbehind hpart ((hparts.tail.each part hpart).isOrderly.leaf_inside hp).1]

/-- A definition puts a name and a site where its name starts. -/
theorem places_addDefinition
    {source : List Char} {scope : Nat} {kind : ScopeKind} {name : Tree} {whole : Extent} {scope' : Nat}
    {place : Location} (h : (f.addDefinition source scope kind name whole).Places scope' place) :
  f.Places scope' place ∨ name.extent.start.location = place ∧ scope' = scope
  := by
  rcases h with ⟨n, hn, hscope, hstart⟩ | ⟨s, hs, hscope, hstart⟩
  · rcases List.mem_cons.mp hn with rfl | hn
    · exact .inr ⟨hstart, hscope.symm⟩
    · exact .inl (.inl ⟨n, hn, hscope, hstart⟩)
  · rcases List.mem_cons.mp hs with rfl | hs
    · exact .inr ⟨hstart, hscope.symm⟩
    · exact .inl (.inr ⟨s, hs, hscope, hstart⟩)

/-- A walk of the parts of a definition after the definition itself makes a walk of it all. -/
theorem Walked.definition
    {source : List Char} {scope : Nat} {kind : ScopeKind} {construct : Construct} {extent : Extent} {parts : Parts}
    {front : List (Label × Tree)} {name : Piece} {body : Tree} (h : parts.Define front name body)
    (hnode : (Tree.node construct extent parts).IsLaidOut)
    (hwalk : (f.addDefinition source scope kind (.identifier name.1 name.2) extent).Walked g parts.openings
      parts.leaves fun place => if body.extent.Holds place then f.scopes.length + 1 else scope) :
  f.Walked g (⟨kind, name, extent, body.extent⟩ :: parts.openings) parts.leaves fun _ => scope
  := by
  have hparts := hnode.parts
  have hbody := hparts.areNested
  rw [h.openings_eq] at hbody
  have hnested := h.areNested kind hnode hbody
  rw [← h.openings_eq] at hnested
  constructor
  · rw [hwalk.scopes, List.map_cons, List.reverse_cons, List.append_assoc, List.singleton_append]
    congr 2
    rw [ownerIn_of_not_holds _ _ hnested.not_holds_start]
    rfl
  · intro scope' place hplaces
    rcases hwalk.placed scope' place hplaces with hplaces | hplaced
    · refine (places_addDefinition hplaces).imp_right ?_
      rintro ⟨rfl, rfl⟩
      -- the name is in no body, neither in that of its own definition nor in one inside it
      have hpart := h.front_mem h.name
      refine ⟨⟨name, ?_, rfl⟩, (ownerIn_of_not_holds _ _ ?_).symm⟩
      · rw [Parts.leaves_eq]
        exact List.mem_flatMap_of_mem hpart List.mem_cons_self
      · rw [List.forall_mem_cons]
        constructor
        · exact fun hholds => h.labels _ h.name ((h.holds_leaf_iff hparts hpart List.mem_cons_self).mp hholds)
        · exact fun d hd => hparts.not_holds hpart rfl (q := name) List.mem_cons_self hd
    · exact .inr hplaced

end Walks

/-- The site of a callee is put at one of its leaves. -/
theorem places_addSite
    {f : Findings} {source : List Char} {scope : Nat} {callee : Tree} (hcallee : callee.IsCallee)
    (horderly : callee.IsOrderly) {scope' : Nat} {place : Location}
    (h : (f.addSite source scope callee).Places scope' place) :
  f.Places scope' place ∨ scope' = scope ∧ ∃ p ∈ callee.leaves, p.2.start.location = place
  := by
  obtain ⟨p, qualifier, hlast, hsite⟩ := hcallee.exists_siteOf horderly source scope
  rw [Places, addSite, hsite] at h
  rcases h with hname | ⟨s, hs, hscope, hstart⟩
  · exact .inl (.inl hname)
  · rcases List.mem_cons.mp hs with rfl | hs
    · exact .inr ⟨hscope.symm, p, List.mem_of_getLast? hlast, hstart⟩
    · exact .inl (.inr ⟨s, hs, hscope, hstart⟩)

/-- Before its parts are walked, a construct puts a site at most at a leaf of its callee. -/
theorem places_record
    {f : Findings} {file : FileFacts} {scope : Nat} {construct : Construct} {extent : Extent} {parts : Parts}
    (horderly : (Tree.node construct extent parts).IsOrderly) {scope' : Nat} {place : Location}
    (h : (f.record file scope construct parts).Places scope' place) :
  f.Places scope' place ∨ scope' = scope ∧ ∃ part ∈ parts.toList, part.2.IsPlain ∧
    ∃ p ∈ part.2.leaves, p.2.start.location = place
  := by
  by_cases hconstruct : construct = .call ∨ construct = .decorator
  · obtain ⟨callee, hcallee, hcalleeIs⟩ := horderly.admits.exists_callee hconstruct
    obtain ⟨label, hmem, _⟩ := Construct.mem_of_callee? hcallee
    rcases f.record_callee file scope hcallee with hrecord | hrecord
    · rw [hrecord] at h
      refine (places_addSite hcalleeIs (horderly.part hmem) h).imp_right ?_
      rintro ⟨hscope, hleaf⟩
      exact ⟨hscope, (label, callee), hmem, hcalleeIs.plain, hleaf⟩
    · rw [hrecord] at h
      exact .inl h
  · left
    obtain ⟨hcall, hdecorator⟩ := not_or.mp hconstruct
    obtain ⟨sites, imports, hrecord⟩ := f.record_eq file scope construct parts
    have hsites := f.sites_record_of_ne file scope parts hcall hdecorator
    rw [hrecord] at hsites
    cases hsites
    rw [hrecord] at h
    exact h

/-- A walk of one name puts it where it stands. -/
theorem walked_addName (f : Findings) (p : Place) (text : String) (extent : Extent) :
  f.Walked (f.addName p text extent) [] [(text, extent)] fun _ => p.scope
  := by
  constructor
  · rfl
  · rintro scope place (⟨n, hn, hscope, hstart⟩ | hsite)
    · rcases List.mem_cons.mp hn with rfl | hn
      · exact .inr ⟨⟨(text, extent), List.mem_cons_self, hstart⟩, hscope.symm⟩
      · exact .inl (.inl ⟨n, hn, hscope, hstart⟩)
    · exact .inl (.inr hsite)

/-- A walk of the parts of a construct that is no definition makes a walk of it all. -/
theorem Walked.node
    {f g : Findings} {file : FileFacts} {scope : Nat} {construct : Construct} {extent : Extent} {parts : Parts}
    (hnode : (Tree.node construct extent parts).IsLaidOut)
    (hwalk : (f.record file scope construct parts).Walked g parts.openings parts.leaves fun _ => scope) :
  f.Walked g parts.openings parts.leaves fun _ => scope
  := by
  obtain ⟨sites, imports, hrecord⟩ := f.record_eq file scope construct parts
  have hscopes : (f.record file scope construct parts).scopes = f.scopes := by rw [hrecord]
  constructor
  · rw [hwalk.scopes, hscopes]
  · intro scope' place hplaces
    rcases hwalk.placed scope' place hplaces with hplaces | hplaced
    · refine (places_record hnode.isOrderly hplaces).imp_right ?_
      rintro ⟨rfl, part, hpart, hplain, q, hq, rfl⟩
      constructor
      · rw [parts.leaves_eq]
        exact ⟨q, List.mem_flatMap_of_mem hpart hq, rfl⟩
      · refine (ownerIn_of_not_holds _ _ fun d hd => ?_).symm
        exact hnode.parts.not_holds hpart hplain.definesNothing.openings_eq hq hd
    · rw [hscopes] at hplaced
      exact .inr hplaced

end Findings

/-- What the parts of a definition hold is around it where the walk of the definition has the part. -/
def Parts.AreHeld (parts : Parts) (p : Place) (inner : Nat) (around : Location → Nat) : Prop :=
  ∀ part ∈ parts.toList,
    (∀ d ∈ part.2.openings, around d.whole.start.location = (p.ofDefinition inner part.1).scope) ∧
      ∀ q ∈ part.2.leaves, around q.2.start.location = (p.ofDefinition inner part.1).scope

theorem Parts.AreHeld.tail {label : Label} {tree : Tree} {rest : Parts} {p : Place} {inner : Nat}
    {around : Location → Nat} (h : (Parts.cons label tree rest).AreHeld p inner around) :
  rest.AreHeld p inner around
  :=
  fun part hpart => h part (List.mem_cons_of_mem _ hpart)

/-- A walk of the parts of a definition, each where the definition holds it, makes a walk of it all. -/
theorem Findings.Walked.ofDefinition {file : FileFacts} {construct : Construct} {extent : Extent} {parts : Parts}
    {kind : ScopeKind} {name : Tree} {p : Place} {f g : Findings} (hopens : construct.opens = some kind)
    (hname : parts.find? .name = some name) (h : (Tree.node construct extent parts).IsLaidOut)
    (hwalk : (∀ tree, (.name, tree) ∈ parts.toList → tree.openings = []) →
      ∀ around, parts.AreHeld p (f.scopes.length + 1) around →
        (f.addDefinition file.source p.scope kind name extent).Walked g parts.openings parts.leaves around) :
  f.Walked g (Tree.node construct extent parts).openings (Tree.node construct extent parts).leaves fun _ => p.scope
  := by
  obtain ⟨front, _, body, hdefine, hname', hopening⟩ := h.exists_define hopens
  cases hname.symm.trans hname'
  rw [Tree.openings_node, hopening]
  apply Findings.Walked.definition hdefine h
  apply hwalk
  · intro tree htree
    exact (h.keeps _ List.mem_cons_self (by simp [hopens]) _ htree (by simp)).openings_eq
  -- the parts of a definition are in the scope that it opens where its body holds them
  · intro part hpart
    constructor
    · intro d hd
      simp only [hdefine.holds_start_iff h.parts hpart hd]
      rfl
    · intro q hq
      simp only [hdefine.holds_leaf_iff h.parts hpart hq]
      rfl

/-- A walk of a tree that is laid out records names, sites and scopes where they belong. -/
theorem Tree.walked_visit (file : FileFacts) (t : Tree) (p : Place) (f : Findings) :
  t.IsLaidOut → f.Walked (t.visit file p f) t.openings t.leaves fun _ => p.scope
  := by
  apply Tree.visit_induction
    (T := fun t p f g => t.IsLaidOut → f.Walked g t.openings t.leaves fun _ => p.scope)
    (A := fun parts around f g => parts.AreLaidOut → ∀ scope, (∀ label, (around label).scope = scope) →
      f.Walked g parts.openings parts.leaves fun _ => scope)
    (D := fun parts p inner f g => parts.AreLaidOut →
      (∀ tree, (.name, tree) ∈ parts.toList → tree.openings = []) → ∀ around, parts.AreHeld p inner around →
        f.Walked g parts.openings parts.leaves around)
  case identifier => exact fun text extent p f _ => f.walked_addName p text extent
  case token => exact fun named text extent p f _ => .refl f _ _
  case node =>
    intro construct extent parts p f g hopens hwalk h
    rw [openings_node, Construct.opening?_eq_none hopens, Option.toList_none, List.nil_append]
    exact Findings.Walked.node h (hwalk h.parts p.scope fun _ => rfl)
  case definition =>
    intro construct extent parts kind name p f g hopens hname hwalk h
    exact .ofDefinition hopens hname h (hwalk h.parts)
  case unnamed =>
    intro construct extent parts kind p f hopens hname h
    obtain ⟨_, _, _, _, hfind, _⟩ := h.exists_define hopens
    cases hname.symm.trans hfind
  case nil => exact fun around f _ scope _ => .refl f _ _
  case cons =>
    intro label tree rest around f g h htree hrest hparts scope haround
    rw [Parts.openings_cons]
    apply Findings.Walked.append hparts
    · rw [← haround label]
      exact htree hparts.head
    · exact hrest hparts.tail scope haround
  case definitionNil => exact fun p inner f _ _ around _ => .refl f _ _
  case definitionName =>
    intro tree rest p inner f g hrest hparts hnames around haround
    rw [Parts.openings_cons, hnames tree List.mem_cons_self, List.nil_append]
    apply (hrest hparts.tail _ around haround.tail).mono (List.subset_append_right _ _)
    exact fun tree htree => hnames tree (List.mem_cons_of_mem _ htree)
  case definitionCons =>
    intro label tree rest p inner f g h hlabel htree hrest hparts hnames around haround
    rw [Parts.openings_cons]
    apply Findings.Walked.append hparts
    · obtain ⟨hopenings, hleaves⟩ := haround (label, tree) List.mem_cons_self
      exact (htree hparts.head).congr hopenings hleaves
    · exact hrest hparts.tail (fun tree htree => hnames tree (List.mem_cons_of_mem _ htree)) around haround.tail

/-! ### The innermost scope -/

/-- Counting through numbers that satisfy a test, the first one of the deepest ones is kept. -/
theorem foldl_deepest (test : Nat → Bool) (depth : Nat → Nat) (count : Nat) :
  let best := (List.range count).foldl (fun best i => if test i && depth best < depth i then i else best) 0
  (best = 0 ∨ test best = true) ∧ ∀ i < count, test i = true → depth i ≤ depth best
  := by
  induction count with
  | zero => simp
  | succ count ih =>
    rw [List.range_succ, List.foldl_append, List.foldl_cons, List.foldl_nil]
    obtain ⟨hbest, hdeepest⟩ := ih
    dsimp only
    split
    · rename_i hdeeper
      rw [Bool.and_eq_true, decide_eq_true_eq] at hdeeper
      refine ⟨.inr hdeeper.1, fun i hi htest => ?_⟩
      rcases Nat.lt_succ_iff_lt_or_eq.mp hi with hi | rfl
      · exact Nat.le_trans (hdeepest i hi htest) (Nat.le_of_lt hdeeper.2)
      · exact Nat.le_refl _
    · rename_i hdeeper
      refine ⟨hbest, fun i hi htest => ?_⟩
      rcases Nat.lt_succ_iff_lt_or_eq.mp hi with hi | rfl
      · exact hdeepest i hi htest
      · rw [htest, Bool.true_and, decide_eq_true_eq] at hdeeper
        exact Nat.le_of_not_lt hdeeper

namespace Outline

/-- A scope is a function or class whose extent holds a place. -/
def Holds (o : Outline) (scope : Nat) (place : Location) : Prop :=
  ∃ i s, scope = i + 1 ∧ o.scopes[i + 1]? = some s ∧ Scope.holds s place = true

/-- A scope is the innermost function or class whose extent holds a place, or the file if there is none. -/
def IsInnermost (o : Outline) (scope : Nat) (place : Location) : Prop :=
  (scope = 0 ∧ ∀ i, ¬ o.Holds i place) ∨ (o.Holds scope place ∧ ∀ i, o.Holds i place → o.Within scope i)

variable {o : Outline}

theorem Holds.lt_length {i : Nat} {place : Location} (h : o.Holds i place) :
  0 < i ∧ i < o.scopes.length
  := by
  obtain ⟨i, s, rfl, hs, _⟩ := h
  exact ⟨Nat.succ_pos i, (List.getElem?_eq_some_iff.mp hs).1⟩

/-- What looking for the scope around a place finds holds the place, and nothing that does is deeper. -/
theorem scopeContaining_deepest (o : Outline) (place : Location) :
  (o.scopeContaining place = 0 ∨ o.Holds (o.scopeContaining place) place) ∧
    ∀ i, o.Holds i place → o.depth i ≤ o.depth (o.scopeContaining place)
  := by
  let test (i : Nat) : Bool := i != 0 && o.scopes[i]?.any (Scope.holds · place)
  have hstep : o.scopeContaining place = (List.range o.scopes.length).foldl
      (fun best i => if test i && o.depth best < o.depth i then i else best) 0 := by
    rw [scopeContaining]
    congr 1
    funext best i
    cases hs : o.scopes[i]? <;> simp [test, hs]
  have htest (i : Nat) : test i = true ↔ o.Holds i place := by
    cases i with
    | zero => simp [test, Holds]
    | succ i =>
      cases hs : o.scopes[i + 1]? <;> simp [test, Holds, hs]
  obtain ⟨hbest, hdeepest⟩ := foldl_deepest test o.depth o.scopes.length
  rw [← hstep, htest] at hbest
  rw [← hstep] at hdeepest
  exact ⟨hbest, fun i hi => hdeepest i hi.lt_length.2 ((htest i).mpr hi)⟩

namespace IsRegular

variable (ho : o.IsRegular)

include ho

theorem depth_zero :
  o.depth 0 = 0
  := by
  rw [depth, ho.chain_zero]
  rfl

theorem depth_of_standsIn {i j : Nat} (h : o.StandsIn i j) :
  o.depth i = o.depth j + 1
  := by
  have hmem : j ∈ o.chain j := (ho.mem_chain_iff (ho.standsIn_lt_length h)).mpr .refl
  have hlength := List.length_pos_of_mem hmem
  rw [depth, depth, ho.chain_eq_cons h, List.length_cons]
  omega

/-- What stands in another scope is deeper. -/
theorem depth_lt_of_within {i j : Nat} (h : o.Within i j) :
  i = j ∨ o.depth j < o.depth i
  := by
  induction h with
  | refl => exact .inl rfl
  | tail _ hstep ih =>
    have hdepth := ho.depth_of_standsIn hstep
    rcases ih with rfl | ih
    · right
      omega
    · right
      omega

/-- Where of two scopes that hold a place one stands in the other, the innermost one is found. -/
theorem isInnermost_scopeContaining
    {place : Location} (hnested : ∀ i j, o.Holds i place → o.Holds j place → o.Within i j ∨ o.Within j i) :
  o.IsInnermost (o.scopeContaining place) place
  := by
  obtain ⟨hbest, hdeepest⟩ := o.scopeContaining_deepest place
  rcases hbest with hzero | hbest
  · left
    refine ⟨hzero, fun i hi => ?_⟩
    -- every function or class is deeper than the file
    have hdepth := hdeepest i hi
    rw [hzero, ho.depth_zero] at hdepth
    obtain ⟨i, s, rfl, hs, _⟩ := hi
    obtain ⟨_, parent, hparent, _⟩ := ho.inner i s hs
    have hdeeper := ho.depth_of_standsIn ⟨s, hs, hparent⟩
    omega
  · right
    refine ⟨hbest, fun i hi => ?_⟩
    rcases hnested _ i hbest hi with hwithin | hwithin
    · exact hwithin
    · rcases ho.depth_lt_of_within hwithin with rfl | hlt
      · exact .refl
      · exact absurd (hdeepest i hi) (Nat.not_le_of_lt hlt)

end IsRegular

/-! ### Scopes and definitions -/

/-- The scopes of an outline but the file are those of some definitions, and these, the names and the sites are in the
scopes that their places belong to. -/
structure Opens (o : Outline) (ds : List Opening) : Prop where
  scopes : o.scopes.drop 1 = ds.map fun d => d.scope (ownerIn d.whole.start.location ds 0 0)
  names : ∀ n ∈ o.names, n.scope = ownerIn n.start ds 0 0
  sites : ∀ s ∈ o.sites, s.scope = ownerIn s.start ds 0 0

theorem opens_ofTree (path : Path) (module : String) (source : List Char) {tree : Tree} (htree : tree.IsLaidOut) :
  (ofTree path module source tree).Opens tree.openings
  := by
  let file : FileFacts := ⟨source, module, path.fileStem? == some "__init__"⟩
  have hwalk : Findings.Walked {} (tree.visit file {} {}) tree.openings tree.leaves fun _ => 0 :=
    tree.walked_visit file {} {} htree
  have hplaced {scope : Nat} {place : Location} (h : (tree.visit file {} {}).Places scope place) :
      scope = ownerIn place tree.openings 0 0 := by
    rcases hwalk.placed scope place h with hempty | ⟨_, howner⟩
    · rcases hempty with ⟨n, hn, _⟩ | ⟨s, hs, _⟩
      · cases hn
      · cases hs
    · exact howner
  constructor
  · change (tree.visit file {} {}).scopes.reverse = _
    rw [hwalk.scopes, List.append_nil, List.reverse_reverse]
    rfl
  · intro n hn
    exact hplaced (.inl ⟨n, mem_names_ofTree.mp hn, rfl, rfl⟩)
  · intro s hs
    exact hplaced (.inr ⟨s, mem_sites_ofTree.mp hs, rfl, rfl⟩)

section Definitions

variable {ds : List Opening} (hopens : o.Opens ds)

include hopens

theorem Opens.getElem?_eq (i : Nat) :
  o.scopes[i + 1]? = ds[i]?.map fun d => d.scope (ownerIn d.whole.start.location ds 0 0)
  := by
  have hdrop := congrArg (·[i]?) hopens.scopes
  simpa [Nat.add_comm] using hdrop

theorem Opens.getElem?_of_definition {i : Nat} {d : Opening} (hd : ds[i]? = some d) :
  o.scopes[i + 1]? = some (d.scope (ownerIn d.whole.start.location ds 0 0))
  := by
  rw [hopens.getElem?_eq, hd, Option.map_some]

theorem Opens.standsIn {i : Nat} {d : Opening} (hd : ds[i]? = some d) :
  o.StandsIn (i + 1) (ownerIn d.whole.start.location ds 0 0)
  :=
  ⟨_, hopens.getElem?_of_definition hd, rfl⟩

theorem Opens.exists_definition {i : Nat} (hi : 0 < i) (hlength : i < o.scopes.length) :
  ∃ j d, i = j + 1 ∧ ds[j]? = some d
  := by
  obtain ⟨j, rfl⟩ := Nat.exists_eq_succ_of_ne_zero (Nat.ne_of_gt hi)
  have hscope := List.getElem?_eq_getElem hlength
  rw [hopens.getElem?_eq, Option.map_eq_some_iff] at hscope
  obtain ⟨d, hd, _⟩ := hscope
  exact ⟨j, d, rfl, hd⟩

/-- A scope holds the places that its definition holds. -/
theorem Opens.holds_iff {i : Nat} {place : Location} :
  o.Holds i place ↔ ∃ j d, i = j + 1 ∧ ds[j]? = some d ∧ d.whole.Holds place
  := by
  have hholds (d : Opening) (parent : Nat) :
      Scope.holds (d.scope parent) place = true ↔ d.whole.Holds place := by
    simp [Scope.holds, Opening.scope, Extent.Holds]
  constructor
  · rintro ⟨j, s, rfl, hs, hplace⟩
    rw [hopens.getElem?_eq, Option.map_eq_some_iff] at hs
    obtain ⟨d, hd, rfl⟩ := hs
    exact ⟨j, d, rfl, hd, (hholds d _).mp hplace⟩
  · rintro ⟨j, d, rfl, hd, hplace⟩
    exact ⟨j, _, rfl, hopens.getElem?_of_definition hd, (hholds d _).mpr hplace⟩

variable (ho : o.IsRegular) (hnested : AreNested ds)

include ho hnested

/-- A scope is within another one if it is that one or its definition starts in the body of the other one. -/
theorem Opens.within_iff {i j : Nat} {d e : Opening} (hd : ds[i]? = some d) (he : ds[j]? = some e) :
  o.Within (i + 1) (j + 1) ↔ i = j ∨ e.body.Holds d.whole.start.location
  := by
  induction i using Nat.strongRecOn generalizing d with
  | _ i ih =>
    have hstep := hopens.standsIn hd
    rcases ownerIn_cases d.whole.start.location ds 0 0 with ⟨howner, hnone⟩ | hlast
    · rw [howner] at hstep
      constructor
      · intro hwithin
        rcases Relation.ReflTransGen.cases_head hwithin with heq | ⟨k, hk, hrest⟩
        · exact .inl (Nat.succ.inj heq)
        · rw [← hstep.eq hk] at hrest
          exact absurd (ho.le_of_within hrest) (Nat.not_succ_le_zero j)
      · rintro (rfl | hholds)
        · exact .refl
        · exact absurd hholds (hnone e (List.mem_of_getElem? he))
    · obtain ⟨k, last, hk, hholds, howner, hbehind⟩ := hlast
      rw [howner, Nat.zero_add] at hstep
      have hki := (hnested.around_of_holds hk hd hholds).1
      have hplace := hnested.holds_whole hk hholds
      constructor
      · intro hwithin
        rcases Relation.ReflTransGen.cases_head hwithin with heq | ⟨k', hk', hrest⟩
        · exact .inl (Nat.succ.inj heq)
        · rw [← hstep.eq hk'] at hrest
          rcases (ih k hki hk).mp hrest with rfl | hstart
          · cases hk.symm.trans he
            exact .inr hholds
          · exact .inr ((hnested.around_of_holds he hk hstart).2 _ hplace)
      · rintro (rfl | hholds')
        · exact .refl
        · refine .head hstep ((ih k hki hk).mpr ?_)
          rcases hnested.cases_of_holds hk he hplace (hnested.holds_whole he hholds') with rfl | hstart | hstart
          · exact .inl rfl
          · -- the last body that holds the start would come before another one that does
            have hlt := (hnested.around_of_holds hk he hstart).1
            exact absurd (hbehind j e he hholds') (Nat.not_le_of_lt hlt)
          · exact .inr hstart

/-- Of two scopes that hold a place, one stands in the other. -/
theorem Opens.within_of_holds {i j : Nat} {place : Location} (hi : o.Holds i place) (hj : o.Holds j place) :
  o.Within i j ∨ o.Within j i
  := by
  obtain ⟨i, d, rfl, hd, hplace⟩ := hopens.holds_iff.mp hi
  obtain ⟨j, e, rfl, he, hplace'⟩ := hopens.holds_iff.mp hj
  rw [hopens.within_iff ho hnested hd he, hopens.within_iff ho hnested he hd]
  rcases hnested.cases_of_holds hd he hplace hplace' with rfl | hstart | hstart
  · exact .inl (.inl rfl)
  · exact .inr (.inr hstart)
  · exact .inl (.inr hstart)

/-- One function or class is within another one if that one holds all places which it holds. -/
theorem Opens.forall_holds_iff
    {i j : Nat} (hi : 0 < i) (hi' : i < o.scopes.length) (hj : 0 < j) (hj' : j < o.scopes.length) :
  (∀ place, o.Holds i place → o.Holds j place) ↔ o.Within i j
  := by
  obtain ⟨i, d, rfl, hd⟩ := hopens.exists_definition hi hi'
  obtain ⟨j, e, rfl, he⟩ := hopens.exists_definition hj hj'
  rw [hopens.within_iff ho hnested hd he]
  constructor
  · intro h
    have hstart := hnested.holds_start hd
    obtain ⟨_, e', heq, he', hplace⟩ := hopens.holds_iff.mp (h _ (hopens.holds_iff.mpr ⟨i, d, rfl, hd, hstart⟩))
    cases heq
    cases he.symm.trans he'
    rcases hnested.cases_of_holds hd he hstart hplace with rfl | hbody | hbody
    · exact .inl rfl
    · have hlow := hnested.low_lt hd he (hnested.around_of_holds hd he hbody).1
      exact absurd (Extent.holds_iff.mp hplace).1 (Nat.not_le_of_lt hlow)
    · exact .inr hbody
  · rintro (rfl | hbody) place hplace
    · exact hplace
    · obtain ⟨_, d', heq, hd', hplace'⟩ := hopens.holds_iff.mp hplace
      cases heq
      cases hd.symm.trans hd'
      have hinside := (hnested.around_of_holds he hd hbody).2 place hplace'
      exact hopens.holds_iff.mpr ⟨j, e, rfl, he, hnested.holds_whole he hinside⟩

end Definitions

/-- A place is in the head of the definition that opens a scope: the definition holds it, but its body does not. -/
def HeadHolds (ds : List Opening) (scope : Nat) (place : Location) : Prop :=
  ∃ i d, scope = i + 1 ∧ ds[i]? = some d ∧ d.whole.Holds place ∧ ¬ d.body.Holds place

/-- What is in the head of the innermost definition around it is in the scope around that definition, and all else is
in the scope of the innermost definition. -/
structure Belongs (o : Outline) (ds : List Opening) (scope : Nat) (place : Location) : Prop where
  head : HeadHolds ds (o.scopeContaining place) place → o.StandsIn (o.scopeContaining place) scope
  other : ¬ HeadHolds ds (o.scopeContaining place) place → scope = o.scopeContaining place

theorem Opens.belongs
    {ds : List Opening} (hopens : o.Opens ds) (ho : o.IsRegular) (hnested : AreNested ds) (place : Location) :
  o.Belongs ds (ownerIn place ds 0 0) place
  := by
  constructor
  · rintro ⟨i, d, hscope, hd, hplace, hbody⟩
    have hsame : ∀ e ∈ ds, e.body.Holds place ↔ e.body.Holds d.whole.start.location := by
      intro e he
      obtain ⟨j, hj⟩ := List.mem_iff_getElem?.mp he
      constructor
      · intro hholds
        rcases hnested.cases_of_holds hd hj hplace (hnested.holds_whole hj hholds) with rfl | hstart | hstart
        · cases hd.symm.trans hj
          exact absurd hholds hbody
        · have hinside := (hnested.around_of_holds hd hj hstart).2 place (hnested.holds_whole hj hholds)
          exact absurd hinside hbody
        · exact hstart
      · exact fun hstart => (hnested.around_of_holds hj hd hstart).2 place hplace
    rw [hscope, ownerIn_congr 0 0 hsame]
    exact hopens.standsIn hd
  · intro hhead
    have hwithin : ∀ i j, o.Holds i place → o.Holds j place → o.Within i j ∨ o.Within j i := fun i j hi hj =>
      hopens.within_of_holds ho hnested hi hj
    rcases ho.isInnermost_scopeContaining hwithin with ⟨hzero, hnone⟩ | ⟨hholds, hinner⟩
    · rw [hzero]
      apply ownerIn_of_not_holds
      intro d hd hbody
      obtain ⟨i, hi⟩ := List.mem_iff_getElem?.mp hd
      exact hnone (i + 1) (hopens.holds_iff.mpr ⟨i, d, rfl, hi, hnested.holds_whole hi hbody⟩)
    · obtain ⟨i, d, hscope, hd, hplace⟩ := hopens.holds_iff.mp hholds
      have hbody : d.body.Holds place := by
        by_contra hbody
        exact hhead ⟨i, d, hscope, hd, hplace, hbody⟩
      rcases ownerIn_cases place ds 0 0 with ⟨_, hnone⟩ | ⟨k, e, he, hbody', howner, hlast⟩
      · exact absurd hbody (hnone d (List.mem_of_getElem? hd))
      · have hk := hlast i d hd hbody
        have hle := ho.le_of_within (hinner (k + 1)
          (hopens.holds_iff.mpr ⟨k, e, rfl, he, hnested.holds_whole he hbody'⟩))
        omega

/-- The functions and classes of an outline are the definitions of a tree, and stand in each other as the extents of
these do.  The scope that is found around a place is the innermost one, and names and sites belong to the scopes
around their places. -/
structure NestsAs (o : Outline) (t : Tree) : Prop where
  opened : List.Forall₂ (fun s d => ∃ parent, s = Opening.scope d parent) (o.scopes.drop 1) t.openings
  inside : ∀ i j, 0 < i → i < o.scopes.length → 0 < j → j < o.scopes.length →
    ((∀ place, o.Holds i place → o.Holds j place) ↔ o.Within i j)
  apart : ∀ i j, o.Within i j ∨ o.Within j i ∨ ∀ place, o.Holds i place → ¬ o.Holds j place
  innermost : ∀ place, o.IsInnermost (o.scopeContaining place) place
  name : ∀ n ∈ o.names, o.Belongs t.openings n.scope n.start
  site : ∀ s ∈ o.sites, o.Belongs t.openings s.scope s.start

/-- The outline of every tree that is laid out nests as the tree does. -/
theorem nested_alike
    (path : Path) (module : String) (source : List Char) {tree : Tree} (htree : tree.IsLaidOut) :
  (ofTree path module source tree).NestsAs tree
  := by
  have ho := isRegular_ofTree path module source tree
  have hopens := opens_ofTree path module source htree
  have hnested := htree.areNested
  constructor
  case opened =>
    rw [hopens.scopes, List.forall₂_map_left_iff, List.forall₂_same]
    exact fun d _ => ⟨_, rfl⟩
  case inside => exact fun i j hi hi' hj hj' => hopens.forall_holds_iff ho hnested hi hi' hj hj'
  case apart =>
    intro i j
    by_contra! h
    obtain ⟨hij, hji, place, hi, hj⟩ := h
    rcases hopens.within_of_holds ho hnested hi hj with hwithin | hwithin
    · exact hij hwithin
    · exact hji hwithin
  case innermost =>
    exact fun place => ho.isInnermost_scopeContaining fun i j hi hj => hopens.within_of_holds ho hnested hi hj
  case name =>
    intro n hn
    rw [hopens.names n hn]
    exact hopens.belongs ho hnested n.start
  case site =>
    intro s hs
    rw [hopens.sites s hs]
    exact hopens.belongs ho hnested s.start

/-- A text with a decorator behind a line continuation, bases, a default value and an annotation, a function in a
method, and comments between. -/
def nestingText : String :=
  "@\\\nd(1)\nclass C(B()):\n    # first\n    def m(self, y=g()) -> T:\n" ++
    "        def k(z): return z\n        return h(k)(y)\n    # last\n\nx = C()\n"

theorem isSome_parse_nesting :
  (parse nestingText.toList).isSome = true
  := by
  decide +kernel

/-- Listed are the scopes with those around them, and the innermost ones around the decorator, the default value, the
result of the inner function and the last line. -/
theorem nested_alike_nesting :
  ∃ tree, parse nestingText.toList = some tree ∧ tree.IsLaidOut ∧
    let o := ofTree ⟨"/tmp/w/m.py"⟩ "m" nestingText.toList tree
    o.NestsAs tree ∧
      o.scopes.map (fun s => (s.name, s.parent)) = [("m", none), ("C", some 0), ("m", some 1), ("k", some 2)] ∧
      [.known 2 1, .known 5 18, .known 6 25, .known 10 0].map o.scopeContaining = [0, 2, 3, 0]
  := by
  have hlaidOut : ((parse nestingText.toList).get isSome_parse_nesting).IsLaidOut := by decide +kernel
  refine ⟨_, (Option.some_get _).symm, hlaidOut, nested_alike ⟨"/tmp/w/m.py"⟩ "m" _ hlaidOut, ?_, ?_⟩
  · decide +kernel
  · decide +kernel

end Outline

end CallGraph.Source
