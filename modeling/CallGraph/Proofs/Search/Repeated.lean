import CallGraph.Proofs.Search.Browsing
import CallGraph.Proofs.Search.Children
import CallGraph.Proofs.Search.Neighbours
import CallGraph.Proofs.Source.Searched

/-!
# Expanding a node again

A node that is expanded twice in a row shows equal elements in the same order, and the second time no file is
searched for usages that was not searched before.  The first expansion does widen the scope, by the members of a
package and by the files in which parents are found.  But a file in which a parent is found was searched
already, so the usages found in the wider scope are those found before.
-/

namespace CallGraph

open Source

variable {c : Scene} {token token' : Token} {files : FileTree} {searchPath : List Path} {W : Path → Prop}

namespace Finding

theorem isUnknown_congr {u u' : Usage} (h : u.Alike files u') :
  u.position.isUnknown = u'.position.isUnknown
  := by
  have hpath : u.path.isNone = u'.path.isNone := by
    have hpath := h.path
    generalize u.path = x at hpath ⊢
    generalize u'.path = x' at hpath ⊢
    cases hpath <;> rfl
  obtain ⟨_, hstart, hstop⟩ := CallPosition.beq_iff.mp h.position
  unfold CallPosition.isUnknown
  rw [hstart, hstop]
  exact congrArg (· && _ && _) hpath

theorem counted_alike {us us' : List Usage} (h : List.Forall₂ (Usage.Alike files) us us') (anchor : Anchor) :
  List.Forall₂ (Usage.Alike files) (anchor.counted us) (anchor.counted us')
  := by
  unfold Anchor.counted
  split
  · apply List.rel_filter _ h
    intro u u' hu
    dsimp only
    rw [hu.rest]
  · exact h

end Finding

/-- Files like those that a scope holds do not widen it. -/
theorem insertAll_alike {scope : SearchScope} {ps ps' : List Path} (h : List.Forall₂ files.Same ps ps')
    (hps : ∀ p ∈ ps, scope.contains p = true) :
  scope.insertAll ps' = scope
  := by
  apply SearchScope.insertAll_of_contains
  intro p' hp'
  obtain ⟨p, hp, hsame⟩ := exists_mem_of_forall₂ h.flip hp'
  rw [← SearchScope.contains_congr hsame.equal]
  exact hps p hp

/-- The nodes of vertices show their elements, and nothing but numbers is taken for them. -/
theorem Workspace.run_nodes {σ : Type} (w : Workspace σ) (vs : List Vertex) :
  (w.run (Search.nodes vs)).1.map Node.element = vs.map Vertex.element ∧
    (w.run (Search.nodes vs)).2 = { w with nextNode := w.nextNode + vs.length }
  := by
  induction vs generalizing w with
  | nil => exact ⟨rfl, rfl⟩
  | cons v vs ih =>
    obtain ⟨helements, hworkspace⟩ := ih { w with nextNode := w.nextNode + 1 }
    unfold Search.nodes
    rw [run_bind, run_bind]
    refine ⟨congrArg (v.element :: ·) helements, hworkspace.trans ?_⟩
    rw [List.length_cons, Nat.add_right_comm, Nat.add_assoc]

section Parsed

variable [Parser]

/-! ### Parents -/

/-- The scope around a usage is in its file. -/
theorem Source.path_of_enclosing {u : Usage} {d : Definition}
    (h : (fresh files searchPath).answer (.enclosing u) = .ok d) :
  d.path = u.path
  := by
  change (fresh files searchPath).enclosing u = .ok d at h
  unfold Survey.enclosing at h
  split at h
  · cases h
  · rename_i path hpath
    obtain ⟨o, ho, h⟩ := exists_of_bind h
    dsimp only at h
    split at h
    · rename_i e he
      cases h
      obtain ⟨s, _, rfl⟩ := Option.map_eq_some_iff.mp he
      rw [hpath]
      exact congrArg some (path_of_outlineNow ho)
    · cases h

namespace Finding

/-- Two definitions alike in a file of some kind. -/
structure AlikeIn (files : FileTree) (W : Path → Prop) (d d' : Definition) : Prop where
  alike : d.Alike files d'
  kind : ∀ p, d.path = some p → W p

section Usage

variable {u u' : Usage} (hu : u.Alike c.files u') (hW : ∀ q p, u.path = some q → c.files.Same q p → W p)

include hu hW

theorem inStep_enclosing? :
  InStep c token token' (· = searchPath) (· = searchPath) W (Option.Rel (AlikeIn c.files W)) (enclosing? u)
    (enclosing? u')
  := by
  have hjoin (a a' z : Definition) (hz : (fresh c.files searchPath).answer (.enclosing u') = .ok z)
      (h : a.Alike c.files z) (h' : a'.Alike c.files z) : AlikeIn c.files W a a' := by
    refine ⟨h.join h', fun p hp => ?_⟩
    have hpath := optionRel_trans .trans h.path (path_of_enclosing hz ▸ optionRel_symm hu.path)
    rw [hp] at hpath
    generalize hq : u.path = x at hpath
    cases hpath with
    | some hsame => exact hW _ p hq hsame.symm
  unfold enclosing?
  have hasked : Search.InStep c token token' (· = searchPath) (· = searchPath) W
      (Outcome c.files (AlikeIn c.files W)) (Search.ask (.enclosing u) none) (Search.ask (.enclosing u') none) :=
    .ask (.enclosing u) (.enclosing u') (fun _ h => ⟨h, h⟩) (mirrors_enclosing hu) (mirrors_enclosing (.refl u'))
      hjoin (by simp) (by simp)
  have hreported (e e' : ProviderError) (context context' : String) :
      InStep c token token' (· = searchPath) (· = searchPath) W (Option.Rel (AlikeIn c.files W))
        (do ExceptT.lift (Search.report e context); pure none)
        (do ExceptT.lift (Search.report e' context'); pure none) :=
    .lift_bind (.quietly (Search.isQuiet_report e context) (Search.isQuiet_report e' context')) fun _ _ _ =>
      .pure .none
  apply InStep.lift_bind hasked
  rintro _ _ (hd | (_ | hsame))
  · exact .pure (.some hd)
  · rename_i e
    cases e with
    | cancelled => exact .throw _
    | _ => exact hreported _ _ _ _
  · exact hreported _ _ _ _

/-- The parents that usages alike give look alike. -/
theorem inStep_parentAt? (v : Vertex) :
  InStep c token token' (· = searchPath) (· = searchPath) W (Option.Rel Vertex.LooksLike) (parentAt? v u)
    (parentAt? v u')
  := by
  unfold parentAt?
  apply (inStep_enclosing? hu hW).bind
  rintro _ _ (@⟨d, d', hd⟩ | _)
  · have hshown := Vertex.LooksLike.ofDefinition hd.alike hu.position .parent
    have hdefined := isDefinedAt_congr v hu.position hd.alike.beq
    have hkind := hd.kind
    have hpath := hd.alike.path
    have hend (line line' : LogLine) : InStep c token token' (· = searchPath) (· = searchPath) W
        (Option.Rel Vertex.LooksLike)
        (if v.isDefinedAt (Vertex.ofDefinition .parent u.position d).element then do
            ExceptT.lift (Search.log line)
            pure none
          else pure (some (Vertex.ofDefinition .parent u.position d)))
        (if v.isDefinedAt (Vertex.ofDefinition .parent u'.position d').element then do
            ExceptT.lift (Search.log line')
            pure none
          else pure (some (Vertex.ofDefinition .parent u'.position d'))) := by
      rw [hdefined]
      split
      · exact .lift_bind (.log line line') fun _ _ _ => .pure .none
      · exact .pure (.some hshown)
    dsimp only
    generalize hfile : d.path = x at hpath hkind ⊢
    generalize hfile' : d'.path = x' at hpath ⊢
    cases hpath with
    | none => exact hend _ _
    | some hsame => exact .lift_bind (.widen hsame (hkind _ rfl)) fun _ _ _ => hend _ _
  · exact .pure .none

end Usage

theorem inStep_parentsAt (v : Vertex) {seen seen' : List CallPosition}
    (hseen : List.Forall₂ (fun p p' => (p == p') = true) seen seen') {us us' : List Usage}
    (hus : List.Forall₂ (Usage.Alike c.files) us us')
    (hW : ∀ u ∈ us, ∀ q p, u.path = some q → c.files.Same q p → W p) :
  InStep c token token' (· = searchPath) (· = searchPath) W (List.Forall₂ Vertex.LooksLike)
    (parentsAt v token seen us) (parentsAt v token' seen' us')
  := by
  induction hus generalizing seen seen' with
  | nil => exact .pure .nil
  | @cons u u' us us' hu _ ih =>
    rw [List.forall_mem_cons] at hW
    unfold parentsAt
    apply InStep.checkpoint_bind
    rw [isUnknown_congr hu, contains_beq hu.position hseen]
    split
    · exact ih hseen hW.2
    · apply (inStep_parentAt? hu hW.1 v).bind
      intro found found' hfound
      have hnext : List.Forall₂ (fun p p' => (p == p') = true)
          (if u'.position.isUnknown then seen else u.position :: seen)
          (if u'.position.isUnknown then seen' else u'.position :: seen') := by
        split
        · exact hseen
        · exact .cons hu.position hseen
      apply (ih hnext hW.2).bind
      intro vs vs' hvs
      apply InStep.pure
      cases hfound with
      | none => exact hvs
      | some hparent => exact .cons hparent hvs

/-- The parents of a vertex that are found in some files. -/
def parentsIn (v : Vertex) (files : List Path) (token : Token) : Finding (List Vertex) :=
  match v.anchor? with
  | none => pure []
  | some anchor => do
    let usages ← askContained (.usages anchor files) token [] s!"while finding usages of {v.element.name}"
    checkpoint token
    parentsAt v token [] (anchor.counted usages)

/-- A path like the file of one of the usages that are found in some files. -/
def IsUsed (c : Scene) (searchPath : List Path) (v : Vertex) (searched : List Path) (p : Path) : Prop :=
  ∃ anchor us, v.anchor? = some anchor ∧ (fresh c.files searchPath).usages searched anchor = .ok us ∧
    ∃ u ∈ us, ∃ q, u.path = some q ∧ c.files.Same q p

/-- Looking for parents again in files in which the same usages are found. -/
theorem inStep_parentsIn (v : Vertex) {searched searched' : List Path}
    (h : ∀ anchor, v.anchor? = some anchor → Outcome c.files (List.Forall₂ (Usage.Alike c.files))
      ((fresh c.files searchPath).usages searched anchor) ((fresh c.files searchPath).usages searched' anchor)) :
  InStep c token token' (· = searchPath) (· = searchPath) (IsUsed c searchPath v searched)
    (List.Forall₂ Vertex.LooksLike) (parentsIn v searched token) (parentsIn v searched' token')
  := by
  unfold parentsIn
  cases hanchor : v.anchor? with
  | none => exact .pure .nil
  | some anchor =>
    -- The usages that are asked for first are those found in the first files, up to spelling.
    have hjoin (as as' zs : List Usage) (hzs : (fresh c.files searchPath).usages searched anchor = .ok zs)
        (has : List.Forall₂ (Usage.Alike c.files) as zs)
        (has' : ∃ ys, List.Forall₂ (Usage.Alike c.files) as' ys ∧ List.Forall₂ (Usage.Alike c.files) zs ys) :
        List.Forall₂ (Usage.Alike c.files) as as' ∧
          ∀ u ∈ as, ∀ q p, u.path = some q → c.files.Same q p → IsUsed c searchPath v searched p := by
      obtain ⟨ys, has', hzs'⟩ := has'
      refine ⟨?_, fun u hu q p hq hsame => ?_⟩
      · have hays := forall₂_join has (List.Forall₂.flip hzs') fun _ _ _ h h' => h.trans h'
        exact forall₂_join hays has' fun _ _ _ h h' => h.trans h'.symm
      · obtain ⟨z, hz, hualike⟩ := exists_mem_of_forall₂ has hu
        have hpath := hualike.path
        rw [hq] at hpath
        generalize hzpath : z.path = x at hpath
        cases hpath with
        | some hqz => exact ⟨anchor, zs, hanchor, hzs, z, hz, _, hzpath, hqz.symm.trans hsame⟩
    have husages : InStep c token token' (· = searchPath) (· = searchPath) (IsUsed c searchPath v searched)
        (fun as as' => List.Forall₂ (Usage.Alike c.files) as as' ∧
          ∀ u ∈ as, ∀ q p, u.path = some q → c.files.Same q p → IsUsed c searchPath v searched p)
        (Finding.askContained (.usages anchor searched) token [] s!"while finding usages of {v.element.name}")
        (Finding.askContained (.usages anchor searched') token' [] s!"while finding usages of {v.element.name}") :=
      .askContained (.usages anchor searched) (.usages anchor searched') (fun _ => rfl) (fun _ => rfl)
        (mirrors_usages anchor searched) ((mirrors_usages anchor searched').of_outcome (h anchor hanchor)) hjoin
        ⟨.nil, List.forall_mem_nil _⟩ _ _
    apply husages.bind
    rintro us us' ⟨hus, hkind⟩
    apply InStep.checkpoint_bind
    apply inStep_parentsAt v .nil (counted_alike hus anchor)
    intro u hu
    apply hkind
    unfold Anchor.counted at hu
    split at hu
    · exact (List.mem_filter.mp hu).1
    · exact hu

end Finding

/-! ### Neighbours -/

namespace Workspace.Plays

variable {w : Workspace Index} {I : List Path → Prop}

/-- A search that is begun for a caller has a token that is not cancelled. -/
theorem enter (h : w.Plays c token I) :
  (w.perform (.enter token)).2.Plays c (w.perform (.enter token)).1 I
  := by
  have hplays : (w.perform (.enter token)).2.Plays c token I := h.perform h.inUse
  exact hplays.withToken (h.numbered.isCancelled_freshBelow h.live)

theorem withNextNode (h : w.Plays c token I) (number : Nat) :
  Plays { w with nextNode := number } c token I
  :=
  ⟨⟨h.analysis, h.provider, h.files⟩, h.searchPath, h.experimental, h.numbered, h.live, h.inUse⟩

/-- A caller is not cancelled when its search is not. -/
theorem caller {number : Nat} (h : w.Plays c (.under token number) I) :
  w.Plays c token I
  := by
  have hlive : (w.searches.signals.cancelled.contains (.under token number) ||
      w.searches.signals.isCancelled token) = false := h.live
  exact h.withToken (Bool.or_eq_false_iff.mp hlive).2

end Workspace.Plays

/-- Searches for neighbours are in step when what they look for is, under any tokens of their own. -/
theorem Search.inStep_neighbours {I J : List Path → Prop} {find find' : Token → Finding (List Vertex)}
    (h : ∀ token token',
      Finding.InStep c token token' I J W (List.Forall₂ Vertex.LooksLike) (find token) (find' token'))
    (context : String) :
  InStep c token token' I J W (List.Forall₂ Vertex.LooksLike) (neighbours token context find)
    (neighbours token' context find')
  := by
  have hafter (search search' : Token) : InStep c search search' I J W (List.Forall₂ Vertex.LooksLike)
      (begun search context (find search)) (begun search' context (find' search')) := by
    have hquiet (t : Token) : (request (.leave t)).IsQuiet := isQuiet_request (.leave t) trivial
    have hleave {found found' : List Vertex} (hfound : List.Forall₂ Vertex.LooksLike found found') :
        InStep c search search' J J W (List.Forall₂ Vertex.LooksLike)
          (do request (.leave search); Pure.pure found) (do request (.leave search'); Pure.pure found') :=
      (InStep.quietly (hquiet search) (hquiet search')).bind fun _ _ _ => .pure hfound
    apply InStep.bind (h search search')
    rintro _ _ (hfound | _)
    · exact hleave hfound
    · exact (InStep.quietly (isQuiet_report _ context) (isQuiet_report _ context)).bind fun _ _ _ => hleave .nil
  intro w w' hw hw'
  obtain ⟨hresult, hend, hend', hwidened⟩ := hafter _ _ _ _ hw.enter hw'.enter
  exact ⟨hresult, hend.caller, hend'.caller, hwidened⟩

namespace Vertex

/-- The parents of a vertex that are found in some files; never fails. -/
def parentsIn (v : Vertex) (files : List Path) (caller : Token) : Search (List Vertex) :=
  Search.neighbours caller s!"while finding inbound connections of {v.text}" (Finding.parentsIn v files)

variable {w : Workspace Index} {I : List Path → Prop} {caller : Token}

/-- The parents of a vertex are found in the files of the scope. -/
theorem run_parents (v : Vertex) (h : w.Plays c caller I) :
  w.run (v.parents caller) = w.run (v.parentsIn w.scope.snapshot caller)
  := by
  have hfound : (w.perform (.enter caller)).2.run (Finding.parents v (w.perform (.enter caller)).1).run =
      (w.perform (.enter caller)).2.run (Finding.parentsIn v w.scope.snapshot (w.perform (.enter caller)).1).run := by
    unfold Finding.parents
    rw [h.enter.run_checkpoint_bind]
    rfl
  unfold parents parentsIn Search.neighbours
  rw [Workspace.run_bind, Workspace.run_bind, Workspace.run_request, Workspace.run_bind,
    Workspace.run_bind ((Finding.parentsIn _ _ _).run), hfound]
  rfl

/-- The neighbours of a vertex for a caller that is not cancelled. -/
theorem run_next (v : Vertex) (hrole : v.element.role ≠ .signature) {w₁ w₂ : Workspace Index} {J : List Path → Prop}
    {children parents : List Vertex} (hw : w.Plays c caller I)
    (hchildren : w.run (v.children caller) = (children, w₁)) (hw₁ : w₁.Plays c caller J)
    (hparents : w₁.run (v.parents caller) = (parents, w₂)) (hw₂ : w₂.Plays c caller J) :
  w.run (v.next caller) = (v.signature?.toList ++ children ++ parents, w₂)
  := by
  have hlive {w : Workspace Index} (h : w.searches.isCancelled caller = false) (f : Bool → Search (List Vertex)) :
      w.run (Search.isCancelled caller >>= f) = w.run (f false) := by
    rw [Workspace.run_bind]
    change w.run (f (w.searches.isCancelled caller)) = _
    rw [h]
  unfold next
  rw [if_neg hrole]
  dsimp only
  rw [hlive hw.live, if_neg Bool.false_ne_true, Workspace.run_bind, hchildren]
  rw [hlive hw₁.live, if_neg Bool.false_ne_true, Workspace.run_bind, hparents]
  rw [hlive hw₂.live, if_neg Bool.false_ne_true]
  rfl

end Vertex

/-- The usages that are found when the scope was widened by files of theirs, or not widened as none were found. -/
theorem usages_again {scope : SearchScope} (hscope : scope.IsDistinct) {v : Vertex} {ps : List Path}
    (hps : ∀ p ∈ ps, Finding.IsUsed c searchPath v scope.snapshot p) {anchor : Anchor}
    (hanchor : v.anchor? = some anchor) :
  Outcome c.files (List.Forall₂ (Usage.Alike c.files)) ((fresh c.files searchPath).usages scope.snapshot anchor)
    ((fresh c.files searchPath).usages (scope.insertAll ps).snapshot anchor)
  := by
  cases hfound : (fresh c.files searchPath).usages scope.snapshot anchor with
  | ok us =>
    have hfiles : ∀ p ∈ ps, ∃ u ∈ us, ∃ q, u.path = some q ∧ c.files.Same q p := by
      intro p hp
      obtain ⟨_, _, hanchor', hfound', hused⟩ := hps p hp
      cases hanchor.symm.trans hanchor'
      cases hfound.symm.trans hfound'
      exact hused
    obtain ⟨us', hfound', halike⟩ := usages_widened hscope hfound hfiles
    rw [hfound']
    exact .ok halike
  | error e =>
    have hnone : ps = [] := by
      apply List.eq_nil_iff_forall_not_mem.mpr
      intro p hp
      obtain ⟨_, _, hanchor', hfound', _⟩ := hps p hp
      cases hanchor.symm.trans hanchor'
      cases hfound.symm.trans hfound'
    rw [hnone]
    change Outcome _ _ _ ((fresh c.files searchPath).usages scope.snapshot anchor)
    rw [hfound]
    exact .error (.refl e)

/-- Whoever expands a vertex again, in whatever workspace of the scene with the same files searched, gets vertices
that look alike and leaves the scope as it is. -/
theorem Vertex.exists_run_next_again {w : Workspace Index} {caller : Token} (v : Vertex)
    (hscope : w.scope.IsDistinct) (hw : w.Plays c caller (· = searchPath)) :
  ∃ inUse, (w.run (v.next caller)).2.Plays c caller (· = inUse) ∧
    ∀ (w' : Workspace Index) (caller' : Token), w'.Plays c caller' (· = inUse) →
      w'.scope = (w.run (v.next caller)).2.scope →
      List.Forall₂ LooksLike (w.run (v.next caller)).1 (w'.run (v.next caller')).1 ∧
        (w'.run (v.next caller')).2.scope = w'.scope
  := by
  by_cases hrole : v.element.role = .signature
  · have hnone (token : Token) : v.next token = pure [] := if_pos hrole
    refine ⟨searchPath, ?_, fun w' caller' _ _ => ?_⟩
    · rw [hnone]
      exact hw
    · rw [hnone, hnone]
      exact ⟨.nil, rfl⟩
  · obtain ⟨inUse, hfound⟩ := Finding.exists_inStep_children c searchPath v
    have hchildren (token token' : Token) : Search.InStep c token token' (fun x => x = searchPath ∨ x = inUse)
        (· = inUse) (fun _ => True) (List.Forall₂ LooksLike) (v.children token) (v.children token') :=
      Search.inStep_neighbours hfound _
    have hparents {searched searched' : List Path} (h : ∀ anchor, v.anchor? = some anchor →
        Outcome c.files (List.Forall₂ (Usage.Alike c.files)) ((fresh c.files inUse).usages searched anchor)
          ((fresh c.files inUse).usages searched' anchor)) (token token' : Token) :
        Search.InStep c token token' (· = inUse) (· = inUse) (Finding.IsUsed c inUse v searched)
          (List.Forall₂ LooksLike) (v.parentsIn searched token) (v.parentsIn searched' token') :=
      Search.inStep_neighbours (fun _ _ => Finding.inStep_parentsIn v h) _
    -- The first expansion, run beside itself, tells by which files it widens the scope.
    obtain ⟨children, w₁, hrun₁⟩ : ∃ children w₁, w.run (v.children caller) = (children, w₁) := ⟨_, _, rfl⟩
    obtain ⟨parents, w₂, hrun₂⟩ : ∃ parents w₂, w₁.run (v.parents caller) = (parents, w₂) := ⟨_, _, rfl⟩
    have hstart := hw.withInUse (J := fun x => x = searchPath ∨ x = inUse) (.inl hw.inUse)
    have hfirst := hchildren caller caller w w hstart hstart
    rw [hrun₁] at hfirst
    obtain ⟨-, hw₁, -, ms, -, -, -, hms, -⟩ := hfirst
    dsimp only at hw₁ hms
    have hdistinct : w₁.scope.IsDistinct := by
      rw [hms]
      exact hscope.insertAll ms
    have hfirst' := hparents (fun _ => usages_again hdistinct (List.forall_mem_nil _)) caller caller w₁ w₁ hw₁ hw₁
    rw [← v.run_parents hw₁, hrun₂] at hfirst'
    obtain ⟨-, hw₂, -, es, -, -, hused, hes, -⟩ := hfirst'
    dsimp only at hw₂ hes
    rw [v.run_next hrole hw hrun₁ hw₁ hrun₂ hw₂]
    refine ⟨inUse, hw₂, fun w' caller' hw' hscope' => ?_⟩
    dsimp only at hscope' ⊢
    -- The members of a package are in the scope by now.
    obtain ⟨children', w₃, hrun₃⟩ : ∃ children' w₃, w'.run (v.children caller') = (children', w₃) := ⟨_, _, rfl⟩
    obtain ⟨parents', w₄, hrun₄⟩ : ∃ parents' w₄, w₃.run (v.parents caller') = (parents', w₄) := ⟨_, _, rfl⟩
    have hagain := hw'.withInUse (J := fun x => x = searchPath ∨ x = inUse) (.inr hw'.inUse)
    have hsecond := hchildren caller caller' w w' hstart hagain
    rw [hrun₁, hrun₃] at hsecond
    obtain ⟨hmembers, -, hw₃, ps, ps', hsame, -, hps, hps'⟩ := hsecond
    dsimp only at hmembers hw₃ hps hps'
    have hscope₃ : w₃.scope = w'.scope := by
      rw [hps']
      refine insertAll_alike hsame fun p hp => ?_
      rw [hscope', hes, hps]
      exact SearchScope.contains_insertAll (SearchScope.contains_insertAll_of_mem hp) es
    -- So are the files of the parents, and the usages found in the scope are still the same.
    have hsearched : ∀ anchor, v.anchor? = some anchor → Outcome c.files (List.Forall₂ (Usage.Alike c.files))
        ((fresh c.files inUse).usages w₁.scope.snapshot anchor)
        ((fresh c.files inUse).usages w₃.scope.snapshot anchor) := by
      rw [hscope₃, hscope', hes]
      exact fun anchor => usages_again hdistinct hused
    have hsecond' := hparents hsearched caller caller' w₁ w₃ hw₁ hw₃
    rw [← v.run_parents hw₁, ← v.run_parents hw₃, hrun₂, hrun₄] at hsecond'
    obtain ⟨hfoundParents, -, hw₄, qs, qs', hsame', -, hqs, hqs'⟩ := hsecond'
    dsimp only at hfoundParents hw₄ hqs hqs'
    rw [v.run_next hrole hagain hrun₃ hw₃ hrun₄ hw₄]
    have hsignature : List.Forall₂ LooksLike v.signature?.toList v.signature?.toList :=
      List.forall₂_same.mpr fun leaf _ => .refl leaf
    refine ⟨List.rel_append (List.rel_append hsignature hmembers) hfoundParents, ?_⟩
    change w₄.scope = w'.scope
    rw [hqs', hscope₃]
    refine insertAll_alike hsame' fun p hp => ?_
    rw [hscope', hqs]
    exact SearchScope.contains_insertAll_of_mem hp

/-! ### Nodes -/

/-- Expanding a node twice in a row gives rows with equal elements in the same order, and the second time the scope is
not widened. -/
theorem Node.next_next {w : Workspace Index} (hw : w.Consults files) (hnumbered : w.searches.signals.IsNumbered)
    (hscope : w.scope.IsDistinct) (n : Node) {caller caller' : Token} (hcaller : w.searches.isCancelled caller = false)
    (hcaller' : (w.run (n.next caller)).2.searches.isCancelled caller' = false) :
  List.Forall₂ (fun row row' => (row.element == row'.element) = true) (w.run (n.next caller)).1
      ((w.run (n.next caller)).2.run (n.next caller')).1 ∧
    ((w.run (n.next caller)).2.run (n.next caller')).2.scope = (w.run (n.next caller)).2.scope
  := by
  cases n with
  | analyzed number v =>
    have hplays : w.Plays ⟨files, w.searchPath, w.getConfig.1.experimentalMode⟩ caller (· = w.analysis.searchPath) :=
      ⟨hw, rfl, rfl, hnumbered, hcaller, rfl⟩
    obtain ⟨inUse, hplays', hagain⟩ := v.exists_run_next_again hscope hplays
    have hrun (w : Workspace Index) (token : Token) : w.run ((Node.analyzed number v).next token) =
        (w.run (v.next token)).2.run (Search.nodes (w.run (v.next token)).1) := Workspace.run_bind _ _ w
    have hrows (w w' : Workspace Index) {vs vs' : List Vertex} (h : List.Forall₂ Vertex.LooksLike vs vs') :
        List.Forall₂ (fun row row' => (row.element == row'.element) = true) (w.run (Search.nodes vs)).1
          (w'.run (Search.nodes vs')).1 := by
      have helements : List.Forall₂ (fun e e' : Element => (e == e') = true) (vs.map Vertex.element)
          (vs'.map Vertex.element) := by
        rw [List.forall₂_map_left_iff, List.forall₂_map_right_iff]
        exact h
      rw [← (w.run_nodes vs).1, ← (w'.run_nodes vs').1, List.forall₂_map_left_iff, List.forall₂_map_right_iff]
        at helements
      exact helements
    rw [hrun] at hcaller' ⊢
    obtain ⟨found, w₁, hrun₁⟩ : ∃ found w₁, w.run (v.next caller) = (found, w₁) := ⟨_, _, rfl⟩
    rw [hrun₁] at hplays' hagain hcaller' ⊢
    dsimp only at hplays' hagain hcaller' ⊢
    have hworkspace := (w₁.run_nodes found).2
    rw [hworkspace] at hcaller' ⊢
    have hplays₁ := (hplays'.withNextNode (w₁.nextNode + found.length)).withToken hcaller'
    obtain ⟨hfound, hkept⟩ := hagain _ caller' hplays₁ rfl
    rw [hrun]
    refine ⟨hrows _ _ hfound, ?_⟩
    rw [(Workspace.run_nodes _ _).2]
    exact hkept
  | organizer number element parents children =>
    have hrun {w : Workspace Index} {token : Token} (hlive : w.searches.isCancelled token = false) :
        w.run ((Node.organizer number element parents children).next token) =
          (if element.role = .signature then [] else children ++ parents, w) := by
      change w.run (if element.role = .signature then pure [] else do
        if ← Search.isCancelled token then pure [] else pure (children ++ parents)) = _
      split
      · rfl
      · change w.run (if w.searches.isCancelled token then pure [] else pure (children ++ parents)) = _
        rw [hlive]
        rfl
    rw [hrun hcaller] at hcaller' ⊢
    rw [hrun hcaller']
    refine ⟨List.forall₂_same.mpr fun row _ => ?_, rfl⟩
    exact Element.beq_iff.mpr ⟨beq_self_eq_true _, beq_self_eq_true _, rfl, rfl, rfl, rfl, rfl, rfl⟩

end Parsed

/-! ### A function that is expanded twice -/

section Drafted

open scoped Grammar

/-- The function in the module. -/
def draftedFunction : Node :=
  .analyzed 0 (.ofDefinition .child ⟨none, .unknown, .unknown⟩
    { name := "f", kind := Kind.functionKind, module := "m", path := some ⟨"/tmp/w/m.py"⟩
      start := .known 1 4, stop := .known 1 5 })

/-- The first time the function is expanded its file comes to be searched; the second time all is as it was. -/
theorem Node.next_next_drafted :
  (draftedWorkspace.run (draftedFunction.next (.root 0))).1.map (fun row => (row.element.role, row.element.name)) =
      [(.signature, "f")] ∧
    (draftedWorkspace.run (draftedFunction.next (.root 0))).2.scope.files.map Path.spelling = ["/tmp/w/m.py"] ∧
    List.Forall₂ (fun row row' => (row.element == row'.element) = true)
      (draftedWorkspace.run (draftedFunction.next (.root 0))).1
      ((draftedWorkspace.run (draftedFunction.next (.root 0))).2.run (draftedFunction.next (.root 1))).1 ∧
    ((draftedWorkspace.run (draftedFunction.next (.root 0))).2.run (draftedFunction.next (.root 1))).2.scope =
      (draftedWorkspace.run (draftedFunction.next (.root 0))).2.scope
  := by
  have hevaluated : (draftedWorkspace.run (draftedFunction.next (.root 0))).1.map
        (fun row => (row.element.role, row.element.name)) = [(.signature, "f")] ∧
      (draftedWorkspace.run (draftedFunction.next (.root 0))).2.scope.files.map Path.spelling = ["/tmp/w/m.py"] ∧
      (draftedWorkspace.run (draftedFunction.next (.root 0))).2.searches.isCancelled (.root 1) = false := by
    decide +kernel
  have hconsults : draftedWorkspace.Consults drafted := ⟨.empty, rfl, rfl⟩
  have hnumbered : draftedWorkspace.searches.signals.IsNumbered := List.forall_mem_nil _
  exact ⟨hevaluated.1, hevaluated.2.1,
    Node.next_next hconsults hnumbered .nil draftedFunction rfl hevaluated.2.2⟩

end Drafted

end CallGraph
