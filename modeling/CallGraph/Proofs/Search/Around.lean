import CallGraph.Proofs.Search.Sites
import CallGraph.Proofs.Search.Wider

/-!
# What usages give

The parents of a node are those that the usages found give, one by one.  What a usage gives is told by what was
answered about the scope around this usage alone, and the files of the scopes found are all that the scope of the
search is widened by.
-/

namespace CallGraph

variable {σ : Type} {token : Token}

/-! ### Usages at one place -/

theorem CallPosition.isUnknown_congr {c c' : CallPosition} (h : (c == c') = true) :
  c.isUnknown = c'.isUnknown
  := by
  obtain ⟨hpath, hstart, hstop⟩ := CallPosition.beq_iff.mp h
  have hnone := congrArg Option.isNone (Path.option_beq_iff.mp hpath)
  rw [Option.isNone_map, Option.isNone_map] at hnone
  rw [isUnknown, isUnknown, hstart, hstop, hnone]

namespace Usage

/-- Whether a usage stands at the known place of another one. -/
def samePlace (u u' : Usage) : Bool :=
  !u'.position.isUnknown && u.position == u'.position

/-- A usage at the place of another one stands at the same places as this one. -/
theorem contains_of_samePlace {u u' : Usage} (h : u.samePlace u' = true) (seen : List CallPosition) :
  (!u.position.isUnknown && seen.contains u.position) = (!u'.position.isUnknown && seen.contains u'.position)
  := by
  rw [samePlace, Bool.and_eq_true] at h
  rw [CallPosition.isUnknown_congr h.2, Finding.contains_congr h.2]

/-- The places seen after one more usage. -/
theorem contains_next (u u' : Usage) (seen : List CallPosition) :
  (!u'.position.isUnknown &&
      (if u.position.isUnknown then seen else u.position :: seen).contains u'.position) =
    (!u'.position.isUnknown && seen.contains u'.position || u.samePlace u')
  := by
  rw [samePlace]
  cases hequal : u.position == u'.position with
  | false =>
    rw [Bool.and_false, Bool.or_false]
    split
    · rfl
    · rw [List.contains_cons, BEq.comm, hequal, Bool.false_or]
  | true =>
    rw [CallPosition.isUnknown_congr hequal]
    cases u'.position.isUnknown with
    | true => rfl
    | false =>
      rw [if_neg Bool.false_ne_true, List.contains_cons, BEq.comm, hequal]
      exact (Bool.or_true _).symm

end Usage

/-! ### Replies -/

/-- A usage and what was answered about the scope around it. -/
abbrev UsageReply : Type :=
  Usage × Except ProviderError Definition

namespace UsageReply

/-- What was answered. -/
def answered (r : UsageReply) : Answered :=
  ⟨.enclosing r.1, r.2⟩

/-- The parent that a usage of a vertex gives: the scope around it if it was found, unless this is the module in which
the vertex itself is defined there. -/
def parent? (v : Vertex) (r : UsageReply) : Option Vertex :=
  r.2.toOption.bind (Finding.parentOf? v r.1)

/-- The file of the scope around a usage. -/
def file? (r : UsageReply) : Option Path :=
  r.2.toOption.bind Definition.path

theorem answered_injective :
  Function.Injective answered
  := by
  rintro ⟨u, result⟩ ⟨u', result'⟩ h
  cases h
  rfl

/-- A parent is shown as one, where the usage stands. -/
theorem element_of_parent? {v p : Vertex} {r : UsageReply} (h : r.parent? v = some p) :
  p.element.role = .parent ∧ p.element.callPosition = r.1.position
  := by
  obtain ⟨d, _, hd⟩ := Option.bind_eq_some_iff.mp h
  unfold Finding.parentOf? at hd
  split at hd
  · cases hd
  · cases hd
    exact ⟨rfl, rfl⟩

/-- The parents that usages give are shown as such, each at one of the usages. -/
theorem element_of_mem_parents {v : Vertex} {replies : List UsageReply} {e : Element}
    (h : e ∈ (replies.filterMap (parent? v)).map Vertex.element) :
  e.role = .parent ∧ ∃ u ∈ replies.map Prod.fst, e.callPosition = u.position
  := by
  obtain ⟨p, hp, rfl⟩ := List.mem_map.mp h
  obtain ⟨r, hr, hparent⟩ := List.mem_filterMap.mp hp
  obtain ⟨hrole, hposition⟩ := element_of_parent? hparent
  exact ⟨hrole, r.1, List.mem_map_of_mem hr, hposition⟩

/-- Parents that usages at different places give stand at different places. -/
theorem pairwise_parents (v : Vertex) {replies : List UsageReply} {us : List Usage}
    (h : replies.map Prod.fst = (firsts Usage.samePlace [] us).map Prod.fst) :
  ((replies.filterMap (parent? v)).map Vertex.element).Pairwise fun e e' =>
    e'.callPosition.isUnknown = false → (e.callPosition == e'.callPosition) = false
  := by
  have hplaces : (replies.map Prod.fst).Pairwise fun u u' => u.samePlace u' = false := by
    rw [h, List.pairwise_map]
    exact (pairwise_firsts Usage.samePlace [] us).imp And.right
  rw [List.pairwise_map] at hplaces ⊢
  apply hplaces.filterMap
  intro r r' hplace p hp p' hp' hknown
  rw [(element_of_parent? hp').2] at hknown ⊢
  rw [(element_of_parent? hp).2]
  rw [Usage.samePlace, hknown] at hplace
  exact hplace

/-- A usage of which the scope is not found gives no parent, and takes none away. -/
theorem filterMap_parent?_set_error (v : Vertex) (replies : List UsageReply) (i : Nat) (u : Usage) (e : ProviderError) :
  (replies.set i (u, .error e)).filterMap (parent? v) = (replies.eraseIdx i).filterMap (parent? v)
  := by
  induction replies generalizing i with
  | nil => rfl
  | cons r replies ih =>
    cases i with
    | zero => rfl
    | succ i =>
      rw [List.set_cons_succ, List.eraseIdx_cons_succ, List.filterMap_cons, List.filterMap_cons, ih]

end UsageReply

/-! ### Searches -/

namespace Finding

theorem finds_enclosing? (u : Usage) :
  (enclosing? u).Finds fun found t =>
    ∃ result : Except ProviderError Definition, found = result.toOption ∧ t = ⟨[⟨.enclosing u, result⟩], []⟩
  := by
  unfold enclosing?
  apply (finds_lift (Search.yields_ask (.enclosing u) none)).bind
  rintro result _ ⟨rfl, huncancelled⟩
  cases result with
  | ok d => exact finds_pure _ ⟨.ok d, rfl, rfl⟩
  | error e =>
    let context := s!"while finding the scope enclosing {u.name} at {u.position.text}"
    have hreport : Finds (ExceptT.lift (Search.report e context) >>= fun _ => pure none) fun found t =>
        ∃ result : Except ProviderError Definition, found = result.toOption ∧
          ⟨[⟨.enclosing u, .error e⟩], []⟩ ++ t = ⟨[⟨.enclosing u, result⟩], []⟩ :=
      (finds_lift (Search.yields_report e _)).quiet_bind fun _ => finds_pure _ ⟨.error e, rfl, rfl⟩
    cases e with
    | cancelled => cases huncancelled _ rfl
    | _ => exact hreport

theorem finds_parentIn? (v : Vertex) (u : Usage) (d : Definition) :
  (parentIn? v u d).Finds fun p t => p = parentOf? v u d ∧ t = {}
  := by
  unfold parentIn? parentOf?
  dsimp only
  split
  · exact (finds_lift (Search.yields_log _)).quiet_bind fun _ => finds_pure _ ⟨rfl, rfl⟩
  · exact finds_pure _ ⟨rfl, rfl⟩

/-- A usage gives its parent, and the file of the scope around it. -/
theorem finds_parentAt? (v : Vertex) (u : Usage) :
  (parentAt? v u).Finds fun p t =>
    ∃ r : UsageReply, r.1 = u ∧ p = r.parent? v ∧ t = ⟨[r.answered], r.file?.toList⟩
  := by
  unfold parentAt?
  apply (finds_enclosing? u).bind
  rintro _ _ ⟨result, rfl, rfl⟩
  cases result with
  | error e => exact finds_pure _ ⟨(u, .error e), rfl, rfl, rfl⟩
  | ok d =>
    have hgiven (t : Transcript) (ht : t = ⟨[], d.path.toList⟩) : (parentIn? v u d).Finds fun p t' =>
        ∃ r : UsageReply, r.1 = u ∧ p = r.parent? v ∧
          ⟨[⟨.enclosing u, .ok d⟩], []⟩ ++ (t ++ t') = ⟨[r.answered], r.file?.toList⟩ := by
      apply (finds_parentIn? v u d).imp
      rintro _ _ ⟨rfl, rfl⟩
      rw [ht, Transcript.append_empty]
      exact ⟨(u, .ok d), rfl, rfl, rfl⟩
    dsimp only [Except.toOption]
    cases hpath : d.path with
    | none => exact hgiven {} (by rw [hpath]; rfl)
    | some file =>
      apply (finds_request (.widen file)).bind
      rintro _ _ rfl
      exact hgiven _ (by rw [hpath]; rfl)

/-- Every usage that is at the known place of no earlier one gives its parent. -/
theorem finds_parentsAt (v : Vertex) {earlier : List Usage} {seen : List CallPosition}
    (hseen : ∀ u : Usage, (!u.position.isUnknown && seen.contains u.position) = earlier.any (Usage.samePlace · u))
    (us : List Usage) :
  (parentsAt v token seen us).Finds fun ps t =>
    ∃ replies : List UsageReply, replies.map Prod.fst = (firsts Usage.samePlace earlier us).map Prod.fst ∧
      ps = replies.filterMap (UsageReply.parent? v) ∧
      t = ⟨replies.map UsageReply.answered, replies.filterMap UsageReply.file?⟩
  := by
  induction us generalizing earlier seen with
  | nil => exact finds_pure [] ⟨[], rfl, rfl, rfl⟩
  | cons u us ih =>
    apply (finds_checkpoint token).quiet_bind
    intro _
    rw [firsts_cons, ← hseen u]
    split
    case isTrue hrepeated =>
      apply ih
      intro u'
      rw [List.any_append, List.any_cons, List.any_nil, Bool.or_false, hseen u']
      cases hplace : u.samePlace u' with
      | false => exact (Bool.or_false _).symm
      | true => rw [Bool.or_true, ← hseen u', ← Usage.contains_of_samePlace hplace, hrepeated]
    case isFalse =>
      apply (finds_parentAt? v u).bind
      rintro _ _ ⟨r, rfl, rfl, rfl⟩
      have hnext (u' : Usage) : (!u'.position.isUnknown &&
          (if r.1.position.isUnknown then seen else r.1.position :: seen).contains u'.position) =
            (earlier ++ [r.1]).any (Usage.samePlace · u') := by
        rw [Usage.contains_next, hseen u', List.any_append, List.any_cons, List.any_nil, Bool.or_false]
      apply (ih hnext).bind
      rintro _ _ ⟨replies, hreplies, rfl, rfl⟩
      refine finds_pure _ ⟨r :: replies, ?_, ?_, ?_⟩
      · rw [List.map_cons, List.map_cons, hreplies]
      · rw [List.filterMap_cons]
        cases r.parent? v <;> rfl
      · rw [Transcript.append_empty, List.filterMap_cons]
        cases r.file? <;> rfl

/-- A vertex is asked for its usages, and they give its parents. -/
theorem finds_parents {v : Vertex} {anchor : Anchor} (hanchor : v.anchor? = some anchor) (token : Token) :
  (parents v token).Finds fun ps t =>
    ∃ (files : List Path) (result : Except ProviderError (List Usage)) (replies : List UsageReply),
      replies.map Prod.fst =
        (firsts Usage.samePlace [] (anchor.counted (result.toOption.getD []))).map Prod.fst ∧
      ps = replies.filterMap (UsageReply.parent? v) ∧
      t = ⟨⟨.usages anchor files, result⟩ :: replies.map UsageReply.answered, replies.filterMap UsageReply.file?⟩
  := by
  unfold parents
  rw [hanchor]
  apply (finds_checkpoint token).quiet_bind
  intro _
  apply ((finds_request .searchedFiles).imp fun _ _ ht => ht).quiet_bind
  intro files
  apply (finds_askContained _ _ _ _).bind
  rintro _ _ ⟨result, rfl, rfl⟩
  apply (finds_checkpoint token).quiet_bind
  intro _
  have hnone (u : Usage) : (!u.position.isUnknown && ([] : List CallPosition).contains u.position) =
      ([] : List Usage).any (Usage.samePlace · u) := Bool.and_false _
  apply (finds_parentsAt v hnone _).imp
  rintro _ _ ⟨replies, hreplies, rfl, rfl⟩
  exact ⟨files, result, replies, hreplies, rfl, rfl⟩

/-- A vertex that nothing is known of is not searched for. -/
theorem finds_parents_of_no_anchor {v : Vertex} (hanchor : v.anchor? = none) (token : Token) :
  (parents v token).Finds fun ps t => ps = [] ∧ t = {}
  := by
  unfold parents
  rw [hanchor]
  apply (finds_checkpoint token).quiet_bind
  intro _
  apply ((finds_request .searchedFiles).imp fun _ _ ht => ht).quiet_bind
  intro _
  exact finds_pure _ ⟨rfl, rfl⟩

end Finding

/-! ### Nodes -/

namespace Node

/-- The parents of an organizer are at hand. -/
theorem run_parents_organizer (number : Nat) (element : Element) (parents children : List Node) (caller : Token)
    (w : Workspace σ) :
  w.run ((organizer number element parents children).parents caller) = (parents, w)
  :=
  rfl

/-- A vertex becomes the nodes of what is found. -/
theorem yields_parents {v : Vertex} {P : List Vertex → Transcript → Prop}
    (h : ∀ token, (Finding.parents v token).Finds P) (number : Nat) (caller : Token) :
  ((analyzed number v).parents caller).Yields .uncancelled fun ns t =>
    ∃ ps, List.Forall₂ Search.Shows ps ns ∧ P ps t
  := by
  have hvertices : (v.parents caller).Yields .uncancelled P := Search.yields_neighbours h caller _
  apply hvertices.bind
  intro ps t hps
  apply (Search.yields_nodes .uncancelled ps).imp
  rintro ns _ ⟨hns, rfl⟩
  rw [Transcript.append_empty]
  exact ⟨ps, hns, hps⟩

/-- The parents of a node, when nothing is cancelled.  An organizer has its own.  A node whose usages can be asked for
has one parent for each usage that is found, in order, at the place of the usage; except usages at the known place of
an earlier one, usages around which no scope is found, and usages at which the node itself is defined, by a module.  A
failure takes away no parent but that of its own usage.  The scope is widened by the scopes found. -/
theorem parents_of_usages (n : Node) (caller : Token) (w : Workspace σ)
    (huncancelled : w.grants .uncancelled (n.parents caller) = true) :
  (∀ number element parents children, n = .organizer number element parents children →
    w.run (n.parents caller) = (parents, w) ∧ (w.transcript (n.parents caller)).answers = []) ∧
  (∀ number v, n = .analyzed number v → v.anchor? = none →
    (w.run (n.parents caller)).1 = [] ∧ (w.transcript (n.parents caller)).answers = [] ∧
      (w.run (n.parents caller)).2.scope = w.scope) ∧
  ∀ number v anchor, n = .analyzed number v → v.anchor? = some anchor →
    ∃ (files : List Path) (result : Except ProviderError (List Usage)) (replies : List UsageReply),
      (w.transcript (n.parents caller)).answers = ⟨.usages anchor files, result⟩ :: replies.map UsageReply.answered ∧
      replies.map Prod.fst =
        (firsts Usage.samePlace [] (anchor.counted (result.toOption.getD []))).map Prod.fst ∧
      List.Forall₂ Search.Shows (replies.filterMap (UsageReply.parent? v)) (w.run (n.parents caller)).1 ∧
      (w.run (n.parents caller)).2.scope = w.scope.insertAll (replies.filterMap UsageReply.file?) ∧
      (∀ e ∈ (w.run (n.parents caller)).1.map element, e.role = .parent ∧
        ∃ u ∈ replies.map Prod.fst, e.callPosition = u.position) ∧
      (((w.run (n.parents caller)).1.map element).Pairwise fun e e' =>
        e'.callPosition.isUnknown = false → (e.callPosition == e'.callPosition) = false) ∧
      ∀ {τ : Type} (w' : Workspace τ) (i : Nat) (u : Usage) (e : ProviderError),
        w'.grants .uncancelled (n.parents caller) = true →
        (w'.transcript (n.parents caller)).answers =
          ⟨.usages anchor files, result⟩ :: (replies.set i (u, .error e)).map UsageReply.answered →
        List.Forall₂ Search.Shows ((replies.eraseIdx i).filterMap (UsageReply.parent? v))
          (w'.run (n.parents caller)).1
  := by
  refine ⟨?_, ?_, ?_⟩
  · rintro number element parents children rfl
    exact ⟨run_parents_organizer number element parents children caller w, rfl⟩
  · rintro number v rfl hanchor
    obtain ⟨_, hshows, rfl, ht⟩ :=
      (yields_parents (Finding.finds_parents_of_no_anchor hanchor) number caller).run huncancelled
    refine ⟨List.forall₂_nil_left_iff.mp hshows, ?_, ?_⟩
    · rw [ht]
    · rw [Workspace.scope_run, ht]
      rfl
  · rintro number v anchor rfl hanchor
    have hyields := yields_parents (Finding.finds_parents hanchor) number caller
    obtain ⟨_, hshows, files, result, replies, hreplies, rfl, ht⟩ := hyields.run huncancelled
    refine ⟨files, result, replies, ?_, hreplies, hshows, ?_, ?_, ?_, ?_⟩
    · rw [ht]
    · rw [Workspace.scope_run, ht]
    · rw [Search.map_element_of_shows hshows]
      exact fun e he => UsageReply.element_of_mem_parents he
    · rw [Search.map_element_of_shows hshows]
      exact UsageReply.pairwise_parents v hreplies
    · intro τ w' i u e huncancelled' hanswers'
      obtain ⟨_, hshows', files', result', replies', _, rfl, ht'⟩ := hyields.run huncancelled'
      -- What was answered determines what the usages give.
      rw [ht'] at hanswers'
      have hset := UsageReply.answered_injective.list_map (List.cons.inj hanswers').2
      rw [← UsageReply.filterMap_parent?_set_error v replies i u e, ← hset]
      exact hshows'

/-- A function that is used twice at one place, once where no scope is found, once at its own place in its module, and
in another file. -/
def mentioned : Workspace Scripted where
  provider := Scripted.provider
  analysis := (((({} : Scripted)
    |>.addUsage "f" (.plain "f" "m" ⟨"m.py"⟩ 3 4) (some (.function "g" "m" ⟨"m.py"⟩ 2)))
    |>.addUsage "f" (.plain "f" "m" ⟨"m.py"⟩ 3 4) none)
    |>.addUsage "f" (.plain "f" "m" ⟨"m.py"⟩ 5 4) none)
    |>.addUsage "f" (.plain "f" "m" ⟨"m.py"⟩ 1 4) (some (.ofModule "m" ⟨"m.py"⟩))
    |>.addUsage "f" (.plain "f" "n" ⟨"n.py"⟩ 2 0) (some (.ofModule "n" ⟨"n.py"⟩))
  files := {}
  config := {}

/-- Two of the five usages give parents, and both files are searched from then on. -/
theorem parents_of_usages_mentioned :
  ∃ v anchor, v.anchor? = some anchor ∧
    mentioned.grants .uncancelled ((analyzed 0 v).parents (.root 0)) = true ∧
    (∃ replies : List UsageReply,
      List.Forall₂ Search.Shows (replies.filterMap (UsageReply.parent? v))
        (mentioned.run ((analyzed 0 v).parents (.root 0))).1) ∧
    (mentioned.run ((analyzed 0 v).parents (.root 0))).1.map (·.element.name) = ["g", "n"] ∧
    (mentioned.run ((analyzed 0 v).parents (.root 0))).2.scope.files.map (·.spelling) = ["n.py", "m.py"]
  := by
  let f : Definition := .function "f" "m" ⟨"m.py"⟩ 1
  have hgrants : mentioned.grants .uncancelled
      ((analyzed 0 (.ofDefinition .definition f.position f)).parents (.root 0)) = true := by decide +kernel
  obtain ⟨_, _, replies, _, _, hshows, _⟩ := (parents_of_usages _ _ _ hgrants).2.2 0 _ (.definition f) rfl rfl
  exact ⟨_, .definition f, rfl, hgrants, ⟨replies, hshows⟩, by decide +kernel, by decide +kernel⟩

end Node

end CallGraph
