import CallGraph.Proofs.Search.Independent
import CallGraph.Proofs.Search.Repeated
import CallGraph.Proofs.Source.Wider
import CallGraph.Source.Grammar

/-!
# Parents in a wider scope

What is found in some files is found again in more files.  The parents of a vertex come from the usages found, of
those at one place only from the first; since all usages at one place stand in one file, leaving out files leaves
out parents and changes no others.
-/

namespace CallGraph

open Source

variable {files : FileTree} {searchPath : List Path} {token : Token}

/-! ### Usages that count -/

/-- The usages that are the first at their place, if `seen` are the known places so far. -/
def Usage.firsts (seen : List CallPosition) : List Usage → List Usage
  | [] => []
  | u :: us =>
    if !u.position.isUnknown && seen.contains u.position then firsts seen us
    else u :: firsts (if u.position.isUnknown then seen else u.position :: seen) us

/-- Whether a usage is the first at its place is told in its file. -/
theorem Usage.firsts_filter {kept : Path → Bool} (hkept : ∀ p q, (p == q) = true → kept p = kept q)
    {seen seen' : List CallPosition}
    (hseen : ∀ c : CallPosition, c.path.all kept = true → seen.contains c = seen'.contains c) (us : List Usage) :
  firsts seen (us.filter (standsIn kept)) = (firsts seen' us).filter (standsIn kept)
  := by
  induction us generalizing seen seen' with
  | nil => rfl
  | cons u us ih =>
    by_cases hu : standsIn kept u = true
    · rw [List.filter_cons_of_pos hu, firsts, firsts, hseen u.position hu]
      split
      · exact ih hseen
      · rw [List.filter_cons_of_pos hu]
        congr 1
        apply ih
        intro c hc
        split
        · exact hseen c hc
        · rw [List.contains_cons, List.contains_cons, hseen c hc]
    · rw [List.filter_cons_of_neg hu, firsts]
      split
      · exact ih hseen
      · rw [List.filter_cons_of_neg hu]
        apply ih
        intro c hc
        split
        · exact hseen c hc
        · have hother : (c == u.position) = false := by
            rw [← Bool.not_eq_true]
            intro hequal
            apply hu
            rw [standsIn]
            have hpath : (c.path == u.path) = true := (CallPosition.beq_iff.mp hequal).1
            generalize c.path = x at hpath hc
            generalize u.path = y at hpath
            cases x with
            | none => cases y <;> first | rfl | cases hpath
            | some p =>
              cases y with
              | none => cases hpath
              | some q => exact (hkept p q hpath).symm.trans hc
          rw [List.contains_cons, hother, Bool.false_or, hseen c hc]

/-- The usages that count are among others if all are. -/
theorem Source.Among.counted {us us' : List Usage} (h : Among files us us') (anchor : Anchor) :
  Among files (anchor.counted us) (anchor.counted us')
  := by
  obtain ⟨kept, hkept, halike⟩ := h
  refine ⟨kept, hkept, ?_⟩
  have hcomm : (anchor.counted us').filter (standsIn kept) = anchor.counted (us'.filter (standsIn kept)) := by
    unfold Anchor.counted
    split
    · rw [List.filter_filter, List.filter_filter]
      simp only [Bool.and_comm]
    · rfl
  rw [hcomm]
  exact Finding.counted_alike halike anchor

/-- A step of a search that fails is the last one. -/
theorem Workspace.run_bind_error {σ α β : Type} {s : Finding α} {f : α → Finding β} {w w' : Workspace σ}
    {e : ProviderError} (h : w.run s.run = (.error e, w')) :
  w.run (s >>= f).run = (.error e, w')
  := by
  have hbind : (s >>= f).run = s.run >>= ExceptT.bindCont f := rfl
  rw [hbind, Workspace.run_bind, h]
  rfl

/-- The parents that scopes alike around usages alike are look alike. -/
theorem Finding.parentOf?_alike (v : Vertex) {u u' : Usage} (hu : u.Alike files u')
    {r r' : Except ProviderError Definition} (h : Outcome files (Definition.Alike files) r r') :
  Option.Rel Vertex.LooksLike (r.toOption.bind (Finding.parentOf? v u)) (r'.toOption.bind (Finding.parentOf? v u'))
  := by
  cases h with
  | error _ => exact .none
  | @ok d d' hd =>
    change Option.Rel Vertex.LooksLike (Finding.parentOf? v u d) (Finding.parentOf? v u' d')
    unfold Finding.parentOf?
    rw [isDefinedAt_congr v hu.position hd.beq]
    split
    · exact .none
    · exact .some (.ofDefinition hd hu.position .parent)

/-- What usages of a node are searched by. -/
def Node.anchor? : Node → Option Anchor
  | analyzed _ v => v.anchor?
  | organizer _ _ _ _ => none

section Parsed

variable [Parser]

/-! ### Parents -/

namespace Vertex

/-- The parent of a vertex that a usage gives, as the files are now. -/
def parentNow (files : FileTree) (searchPath : List Path) (v : Vertex) (u : Usage) : Option Vertex :=
  ((fresh files searchPath).enclosing u : Except ProviderError Definition).toOption.bind (Finding.parentOf? v u)

/-- The parents of a vertex that usages give, as the files are now. -/
def parentsNow (files : FileTree) (searchPath : List Path) (v : Vertex) (us : List Usage) : List Vertex :=
  (Usage.firsts [] us).filterMap (v.parentNow files searchPath)

/-- Usages that are among others give parents that are among those that the others give. -/
theorem exists_parentsNow_sublist (searchPath : List Path) {us us' : List Usage} (h : Among files us us') (v : Vertex) :
  ∃ vs, List.Forall₂ (Usage.Alike files) us vs ∧
    (v.parentsNow files searchPath vs).Sublist (v.parentsNow files searchPath us')
  := by
  obtain ⟨kept, hkept, halike⟩ := h
  refine ⟨_, halike, ?_⟩
  rw [parentsNow, Usage.firsts_filter hkept fun _ _ => rfl]
  exact List.filter_sublist.filterMap _

end Vertex

namespace Workspace

namespace Indexes

variable {w : Workspace Index} (h : w.Indexes files searchPath token)

include h

/-- A question whose failure goes no further, if it has no answer. -/
theorem run_askContained_of_error {q : Question} (hq : ∀ x : Index, x.prepared q = x) {e : ProviderError}
    (he : (Index.answer files q w.analysis).1 = .error e) (default : q.Answer) (context : String) :
  ∃ w', w'.Indexes files searchPath token ∧
    (w.run (Finding.askContained q token default context).run = (.ok default, w') ∨
      ∃ e, w.run (Finding.askContained q token default context).run = (.error e, w'))
  := by
  obtain ⟨w₁, hask, hw₁⟩ := h.run_ask hq (some token) (by rintro _ ⟨⟩; rfl)
  obtain ⟨w₂, hreport, hw₂⟩ := hw₁.run_report e context
  unfold Finding.askContained
  rw [run_lift_bind hask, he]
  cases e with
  | cancelled => exact ⟨w₁, hw₁, .inr ⟨_, rfl⟩⟩
  | _ =>
    refine ⟨w₂, hw₂, .inl ?_⟩
    unfold Finding.contained
    rw [run_lift_bind hreport]
    rfl

/-- A search that is begun for a caller that is not cancelled is not cancelled. -/
theorem enter (hnumbered : w.searches.signals.IsNumbered) :
  (w.perform (.enter token)).2.Indexes files searchPath (w.perform (.enter token)).1
  :=
  ⟨h.analysis, h.provider, h.files, h.searchPath, hnumbered.isCancelled_freshBelow h.live⟩

end Indexes

end Workspace

namespace Finding

variable {w : Workspace Index}

/-- The parents that are found by going through usages are those that the usages give as the files are now. -/
theorem run_parentsAt_alike (h : w.Indexes files searchPath token) (v : Vertex) {us vs : List Usage}
    (hus : List.Forall₂ (Usage.Alike files) us vs) {seen seen' : List CallPosition}
    (hseen : List.Forall₂ Equal seen seen') :
  ∃ ps w', w.run (parentsAt v token seen us).run = (.ok ps, w') ∧
    List.Forall₂ Vertex.LooksLike ps ((Usage.firsts seen' vs).filterMap (v.parentNow files searchPath))
  := by
  induction hus generalizing w seen seen' with
  | nil => exact ⟨[], w, rfl, .nil⟩
  | @cons u u' us vs hu _ ih =>
    unfold parentsAt Usage.firsts
    rw [Workspace.run_bind_ok h.run_checkpoint, isUnknown_congr hu, contains_beq hu.position hseen]
    split
    · exact ih h hseen
    · obtain ⟨w₁, hfirst, hw₁⟩ := run_parentAt? h v u
      have hnext : List.Forall₂ Equal (if u'.position.isUnknown then seen else u.position :: seen)
          (if u'.position.isUnknown then seen' else u'.position :: seen') := by
        split
        · exact hseen
        · exact .cons hu.position hseen
      obtain ⟨ps, w', hrun, hps⟩ := ih hw₁ hnext
      have hanswer := (h.analysis.answer_mirrors (q := .enclosing u) h.searchPath (mirrors_enclosing hu)).1
      have hparent := parentOf?_alike v hu hanswer
      refine ⟨((Index.answer files (.enclosing u) w.analysis).1.toOption.bind (parentOf? v u)).toList ++ ps, w', ?_, ?_⟩
      · rw [Workspace.run_bind_ok hfirst, Workspace.run_bind_ok hrun]
        rfl
      · rw [List.filterMap_cons, Vertex.parentNow]
        generalize (Index.answer files (.enclosing u) w.analysis).1.toOption.bind (parentOf? v u) = found at hparent ⊢
        generalize Option.bind _ (parentOf? v u') = found' at hparent ⊢
        cases hparent with
        | none => exact hps
        | some hlooks => exact .cons hlooks hps

/-- The parents of a vertex are those that its usages give as the files are now. -/
theorem found_parents (h : w.Indexes files searchPath token) {v : Vertex} {anchor : Anchor}
    (hanchor : v.anchor? = some anchor) {us vs : List Usage}
    (hus : (Index.answer files (.usages anchor w.scope.snapshot) w.analysis).1 = .ok us)
    (halike : List.Forall₂ (Usage.Alike files) (anchor.counted us) vs) :
  List.Forall₂ Vertex.LooksLike (Search.found (w.run (parents v token).run).1) (v.parentsNow files searchPath vs)
  := by
  have hscope : w.run (request .searchedFiles : Finding (List Path)).run = (.ok w.scope.snapshot, w) := rfl
  obtain ⟨w₁, hask, hw₁⟩ := h.run_askContained (q := .usages anchor w.scope.snapshot) (fun _ => rfl) hus []
    s!"while finding usages of {v.element.name}"
  obtain ⟨ps, w', hrun, hps⟩ := run_parentsAt_alike hw₁ v halike .nil
  unfold parents
  rw [Workspace.run_bind_ok h.run_checkpoint, Workspace.run_bind_ok hscope, hanchor]
  dsimp only
  rw [Workspace.run_bind_ok hask, Workspace.run_bind_ok hw₁.run_checkpoint, hrun]
  exact hps

/-- Where the usages of a vertex cannot be found, no parents are. -/
theorem found_parents_of_error (h : w.Indexes files searchPath token) {v : Vertex} {anchor : Anchor}
    (hanchor : v.anchor? = some anchor) {e : ProviderError}
    (hus : (Index.answer files (.usages anchor w.scope.snapshot) w.analysis).1 = .error e) :
  Search.found (w.run (parents v token).run).1 = []
  := by
  have hscope : w.run (request .searchedFiles : Finding (List Path)).run = (.ok w.scope.snapshot, w) := rfl
  have hnone : anchor.counted [] = [] := by cases anchor <;> rfl
  obtain ⟨w₁, hw₁, hask⟩ := h.run_askContained_of_error (q := .usages anchor w.scope.snapshot) (fun _ => rfl) hus []
    s!"while finding usages of {v.element.name}"
  unfold parents
  rw [Workspace.run_bind_ok h.run_checkpoint, Workspace.run_bind_ok hscope, hanchor]
  dsimp only
  rcases hask with hask | ⟨e, hask⟩
  · rw [Workspace.run_bind_ok hask, Workspace.run_bind_ok hw₁.run_checkpoint, hnone]
    rfl
  · rw [Workspace.run_bind_error hask]
    rfl

/-- A vertex without an anchor has no parents. -/
theorem found_parents_of_no_anchor (h : w.Indexes files searchPath token) {v : Vertex} (hanchor : v.anchor? = none) :
  Search.found (w.run (parents v token).run).1 = []
  := by
  have hscope : w.run (request .searchedFiles : Finding (List Path)).run = (.ok w.scope.snapshot, w) := rfl
  unfold parents
  rw [Workspace.run_bind_ok h.run_checkpoint, Workspace.run_bind_ok hscope, hanchor]
  rfl

end Finding

/-! ### A wider scope -/

variable {w w' : Workspace Index} {caller caller' : Token}

/-- What an index answers about usages in some files is among what it answers about more files. -/
theorem Source.Index.Reached.outcome_widened {x x' : Index} (hx : x.Reached files) (hx' : x'.Reached files)
    (hsearch : x.searchPath = searchPath) (hsearch' : x'.searchPath = searchPath) {anchor : Anchor}
    {narrow wide : List Path} (hwiden : Widens files searchPath anchor narrow wide) :
  Outcome files (Among files) (Index.answer files (.usages anchor narrow) x).1
    (Index.answer files (.usages anchor wide) x').1
  := by
  have hout := (hx.answer_mirrors (q := .usages anchor narrow) hsearch (mirrors_usages anchor narrow)).1
  have hout' := (hx'.answer_mirrors (q := .usages anchor wide) hsearch' (mirrors_usages anchor wide)).1
  have hsame (us : List Usage) : List.Forall₂ (Usage.Alike files) us us := List.forall₂_same.mpr fun u _ => .refl u
  have hwide : Outcome files (Among files) (Index.answer files (.usages anchor narrow) x).1
      ((fresh files searchPath).usages wide anchor) := by
    apply hout.trans hwiden.outcome_usages
    intro us zs vs hus hamong
    exact hamong.congr hus (hsame vs)
  apply hwide.join hout'
  intro us us' vs _ hamong hus'
  exact hamong.congr (hsame us) hus'

/-- The parents of a vertex are among those found where the scope is wider. -/
theorem Vertex.parents_widened (v : Vertex) (h : w.Indexes files searchPath caller)
    (h' : w'.Indexes files searchPath caller') (hnumbered : w.searches.signals.IsNumbered)
    (hnumbered' : w'.searches.signals.IsNumbered)
    (hwiden : ∀ anchor, v.anchor? = some anchor →
      Widens files searchPath anchor w.scope.snapshot w'.scope.snapshot) :
  List.SublistForall₂ LooksLike (w.run (v.parents caller)).1 (w'.run (v.parents caller')).1
  := by
  have hbegun := h.enter hnumbered
  have hbegun' := h'.enter hnumbered'
  unfold parents
  rw [Workspace.run_neighbours, Workspace.run_neighbours]
  cases hanchor : v.anchor? with
  | none =>
    rw [Finding.found_parents_of_no_anchor hbegun hanchor]
    exact .nil
  | some anchor =>
    have hout := h.analysis.outcome_widened h'.analysis h.searchPath h'.searchPath (hwiden anchor hanchor)
    generalize hus : (Index.answer files (.usages anchor w.scope.snapshot) w.analysis).1 = answer at hout
    generalize hus' : (Index.answer files (.usages anchor w'.scope.snapshot) w'.analysis).1 = answer' at hout
    cases hout with
    | error _ =>
      rw [Finding.found_parents_of_error hbegun hanchor hus]
      exact .nil
    | @ok us us' hamong =>
      obtain ⟨vs, halike, hsublist⟩ := exists_parentsNow_sublist searchPath (hamong.counted anchor) v
      have hfound := Finding.found_parents hbegun hanchor hus halike
      have hfound' := Finding.found_parents hbegun' hanchor hus' (List.forall₂_same.mpr fun u _ => .refl u)
      exact sublistForall₂_of_join hfound hsublist hfound' fun _ _ _ h h' => BEq.trans h (BEq.symm h')

/-- The parents of a node are among those found where the scope is wider. -/
theorem Node.parents_widened (n : Node) (h : w.Indexes files searchPath caller)
    (h' : w'.Indexes files searchPath caller') (hnumbered : w.searches.signals.IsNumbered)
    (hnumbered' : w'.searches.signals.IsNumbered)
    (hwiden : ∀ anchor, n.anchor? = some anchor →
      Widens files searchPath anchor w.scope.snapshot w'.scope.snapshot) :
  List.SublistForall₂ Equal ((w.run (n.parents caller)).1.map element) ((w'.run (n.parents caller')).1.map element)
  := by
  cases n with
  | analyzed number v =>
    have hparents := v.parents_widened h h' hnumbered hnumbered' hwiden
    have hrun (w : Workspace Index) (token : Token) :
        (w.run ((Node.analyzed number v).parents token)).1.map element =
          (w.run (v.parents token)).1.map Vertex.element := by
      change (w.run (v.parents token >>= Search.nodes)).1.map element = _
      rw [Workspace.run_bind]
      exact (Workspace.run_nodes _ _).1
    rw [hrun, hrun, List.sublistForall₂_map_left_iff, List.sublistForall₂_map_right_iff]
    exact hparents
  | organizer number e parents children =>
    change List.SublistForall₂ Equal (parents.map element) (parents.map element)
    exact List.sublistForall₂_iff.mpr ⟨_, List.forall₂_same.mpr fun e _ => beq_self_eq_true e, .refl _⟩

/-- A wider scope only adds usages, and only adds parents. -/
theorem SearchScope.wider_only_adds (files : FileTree) (searchPath : List Path) :
  (∀ (anchor : Anchor) (narrow wide : List Path) (x x' : Index), Widens files searchPath anchor narrow wide →
    x.Reached files → x'.Reached files → x.searchPath = searchPath → x'.searchPath = searchPath →
    Outcome files (List.SublistForall₂ Equal) (Index.answer files (.usages anchor narrow) x).1
      (Index.answer files (.usages anchor wide) x').1) ∧
  ∀ (n : Node) (w w' : Workspace Index) (caller caller' : Token), w.Indexes files searchPath caller →
    w'.Indexes files searchPath caller' → w.searches.signals.IsNumbered → w'.searches.signals.IsNumbered →
    (∀ anchor, n.anchor? = some anchor → Widens files searchPath anchor w.scope.snapshot w'.scope.snapshot) →
    List.SublistForall₂ Equal ((w.run (n.parents caller)).1.map Node.element)
      ((w'.run (n.parents caller')).1.map Node.element)
  := by
  constructor
  · intro anchor narrow wide x x' hwiden hx hx' hsearch hsearch'
    apply (hx.outcome_widened hx' hsearch hsearch' hwiden).imp
    apply Among.sublistForall₂
  · intro n w w' caller caller' h h' hnumbered hnumbered' hwiden
    exact n.parents_widened h h' hnumbered hnumbered' hwiden

end Parsed

/-! ### A module that is imported twice -/

section Imported

open scoped Grammar

/-- A module that imports itself, and a file that imports it too. -/
def importedTree : FileTree :=
  { entries := [(["tmp"], .directory), (["tmp", "w"], .directory),
      (["tmp", "w", "a.py"], .file "import m\n".toUTF8 1), (["tmp", "w", "m.py"], .file "import m\n".toUTF8 1)] }

/-- The module. -/
def importedModule : Definition :=
  .ofModule "m" ⟨"/tmp/w/m.py"⟩

/-- The node of the module. -/
def importedNode : Node :=
  .analyzed 0 (.ofDefinition .child ⟨none, .unknown, .unknown⟩ importedModule)

/-- A workspace over the two files, some of which are searched besides the module's own. -/
def importedWorkspace (paths : List Path) : Workspace Index :=
  { provider := Index.provider, analysis := {}, files := importedTree, config := {}, scope := ⟨paths⟩ }

/-- The usages that are found when some files are searched. -/
def importedUsages (paths : List Path) : Except ProviderError (List Usage) :=
  (Index.answer importedTree (.usages (.definition importedModule) paths) {}).1

/-- The parents that are found when some files are searched. -/
def importedParents (paths : List Path) : List Element :=
  ((importedWorkspace paths).run (importedNode.parents (.root 0))).1.map Node.element

/-- The files in which usages were found. -/
def usedIn (usages : Except ProviderError (List Usage)) : Option (List (Option String)) :=
  usages.toOption.map (·.map fun u => u.path.map Path.spelling)

/-- Searching the module's usages in files that stand in order, each once. -/
def searchIn (paths : List Path) : ExceptT ProviderError (StateM Index) (List Usage) := do
  let isMember ← (Index.survey importedTree {}).isMember importedModule
  (Index.survey importedTree {}).usagesIn importedModule isMember paths

theorem importedUsages_eq (paths : List Path) :
  importedUsages paths = (searchIn (Survey.filesFor importedModule paths) {}).1
  :=
  rfl

/-- A file that stands before the module's own is searched before it. -/
theorem filesFor_importedModule {p : Path} (h : p.before ⟨"/tmp/w/m.py"⟩ = true) :
  Survey.filesFor importedModule [p] = [p, ⟨"/tmp/w/m.py"⟩]
  := by
  have hordered : [p, ⟨"/tmp/w/m.py"⟩].Pairwise fun p q => (!q.before p) = true := by
    rw [List.pairwise_pair, Path.notBefore_iff]
    exact (Path.before_iff.mp h).le
  have hsort : Path.sort [p, ⟨"/tmp/w/m.py"⟩] = [p, ⟨"/tmp/w/m.py"⟩] := List.mergeSort_of_pairwise hordered
  change Survey.withoutRuns (Path.sort [p, ⟨"/tmp/w/m.py"⟩]) = _
  have hother : ¬ (p == ⟨"/tmp/w/m.py"⟩) = true := fun hequal =>
    (Path.before_iff.mp h).ne (Path.beq_iff_keys.mp hequal)
  rw [hsort, Survey.withoutRuns, if_neg hother, Survey.withoutRuns]

/-- When the second file comes to be searched, its usages and parents are added. -/
theorem SearchScope.wider_only_adds_imported :
  usedIn (importedUsages []) = some [some "/tmp/w/m.py"] ∧
    usedIn (importedUsages [⟨"/tmp/w/a.py"⟩]) = some [some "/tmp/w/a.py", some "/tmp/w/m.py"] ∧
    Outcome importedTree (List.SublistForall₂ Equal) (importedUsages []) (importedUsages [⟨"/tmp/w/a.py"⟩]) ∧
    (importedParents []).map (fun e => (e.name, e.callPosition.start)) = [("m", .known 1 7)] ∧
    List.SublistForall₂ Equal (importedParents []) (importedParents [⟨"/tmp/w/a.py"⟩])
  := by
  have hwiden (anchor : Anchor) (hanchor : anchor = .definition importedModule) :
      Widens importedTree [] anchor [] [⟨"/tmp/w/a.py"⟩] := by
    subst hanchor
    refine ⟨List.forall_mem_nil _, fun p q hp hq hequal => ?_⟩
    rw [List.mem_singleton] at hq
    subst hq
    rcases hp with hp | ⟨d, hd, hp⟩
    · cases hp
    · cases hd
      cases hp
      exact absurd hequal (by decide)
  have hindexes (paths : List Path) : (importedWorkspace paths).Indexes importedTree [] (.root 0) :=
    ⟨.empty, rfl, rfl, rfl, rfl⟩
  have hnumbered (paths : List Path) : (importedWorkspace paths).searches.signals.IsNumbered := List.forall_mem_nil _
  obtain ⟨husages, hparents⟩ := SearchScope.wider_only_adds importedTree []
  refine ⟨by decide +kernel, ?_, husages _ _ _ {} {} (hwiden _ rfl) .empty .empty rfl rfl, by decide +kernel,
    hparents _ _ _ _ _ (hindexes _) (hindexes _) (hnumbered _) (hnumbered _) fun anchor hanchor => ?_⟩
  · rw [importedUsages_eq, filesFor_importedModule (by decide)]
    decide +kernel
  · have hsnapshots : (importedWorkspace []).scope.snapshot = [] ∧
        (importedWorkspace [⟨"/tmp/w/a.py"⟩]).scope.snapshot = [⟨"/tmp/w/a.py"⟩] :=
      ⟨List.mergeSort_nil, List.mergeSort_singleton _⟩
    rw [hsnapshots.1, hsnapshots.2]
    exact hwiden anchor (Option.some.inj hanchor).symm

/-- A spelling that a file cannot be read under takes the place of the one that is the module's own, so its
usages in the file are lost, though no file is left out. -/
theorem SearchScope.not_wider_only_adds_respelled :
  usedIn (importedUsages []) = some [some "/tmp/w/m.py"] ∧
    usedIn (importedUsages [⟨"/tmp/w/m.py/"⟩]) = some [] ∧
    ¬ Outcome importedTree (List.SublistForall₂ Equal) (importedUsages []) (importedUsages [⟨"/tmp/w/m.py/"⟩])
  := by
  have hnarrow : usedIn (importedUsages []) = some [some "/tmp/w/m.py"] := by decide +kernel
  have hfiles : Survey.filesFor importedModule [⟨"/tmp/w/m.py/"⟩] = [⟨"/tmp/w/m.py/"⟩] := by
    have hequal : ((⟨"/tmp/w/m.py/"⟩ : Path) == ⟨"/tmp/w/m.py"⟩) = true := by decide
    have hordered : [(⟨"/tmp/w/m.py/"⟩ : Path), ⟨"/tmp/w/m.py"⟩].Pairwise fun p q => (!q.before p) = true := by
      rw [List.pairwise_pair, Path.notBefore_iff, Path.beq_iff_keys.mp hequal]
    have hsort : Path.sort [⟨"/tmp/w/m.py/"⟩, ⟨"/tmp/w/m.py"⟩] = [⟨"/tmp/w/m.py/"⟩, ⟨"/tmp/w/m.py"⟩] :=
      List.mergeSort_of_pairwise hordered
    change Survey.withoutRuns (Path.sort [⟨"/tmp/w/m.py/"⟩, ⟨"/tmp/w/m.py"⟩]) = _
    rw [hsort, Survey.withoutRuns, if_pos hequal, Survey.withoutRuns]
  have hwide : usedIn (importedUsages [⟨"/tmp/w/m.py/"⟩]) = some [] := by
    rw [importedUsages_eq, hfiles]
    decide +kernel
  refine ⟨hnarrow, hwide, fun hout => ?_⟩
  generalize importedUsages [] = r at hnarrow hout
  generalize importedUsages [⟨"/tmp/w/m.py/"⟩] = r' at hwide hout
  cases hout with
  | error _ => cases hnarrow
  | ok hsublist =>
    cases List.map_eq_nil_iff.mp (Option.some.inj hwide)
    cases hsublist
    cases hnarrow

end Imported

end CallGraph
