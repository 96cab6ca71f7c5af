import CallGraph.Proofs.Search.Consulting
import CallGraph.Proofs.Search.Independent
import CallGraph.Proofs.Settings.Kept
import CallGraph.Proofs.Settings.Outcomes
import CallGraph.Proofs.Settings.Resolving
import CallGraph.Proofs.Source.Editing

/-!
# Roots read anew

An index that has kept the outlines of files resolves a name or a script into an element that is equal to the one that
reading every file anew gives, and fails with the same error, letter by letter: no error is kept, and the search path
in use is spelled as it was given.  So the roots of an opened project depend on its settings and on the files only.
-/

namespace CallGraph

open Source

variable {files : FileTree} {searchPath : List Path}

/-! ### Questions on one search path -/

/-- A question that names no other search path than a given one. -/
def Question.IsOn (searchPath : List Path) : Question → Prop
  | resolve _ other | script _ other => other = searchPath
  | _ => True

/-- A question about what stands inside a scope names no search path. -/
theorem Question.IsInside.isOn {q : Question} (h : q.IsInside) :
  q.IsOn searchPath
  := by
  cases q with
  | callSites | targets | scopeNames => trivial
  | resolve | script | usages | enclosing => cases h

namespace Search

theorem asks_ask {asks : Question → Prop} {q : Question} (h : asks q) :
  (ask q none).Asks asks
  :=
  asks_of_heeds (heeds_ask_none (c := ⟨asks, fun _ => True, True⟩) h) fun _ => id

theorem asks_log {asks : Question → Prop} (line : LogLine) :
  (log line).Asks asks
  :=
  ⟨trivial, fun _ => trivial⟩

theorem asks_nodes {asks : Question → Prop} (vs : List Vertex) :
  (nodes vs).Asks asks
  := by
  induction vs with
  | nil => trivial
  | cons v vs ih => exact ⟨trivial, fun _ => ih.bind fun _ => trivial⟩

theorem asks_moduleNode (searchPath : List Path) (name : String) :
  (moduleNode searchPath name).Asks (Question.IsOn searchPath)
  := by
  have hvertex : (moduleVertex searchPath name).Asks (Question.IsOn searchPath) := by
    have hasked : (ask (.resolve name searchPath) none).Asks (Question.IsOn searchPath) := asks_ask rfl
    apply hasked.bind
    intro answer
    rcases answer with e | _ | d
    · trivial
    · trivial
    · obtain ⟨name, kind, module, file, start, stop⟩ := d
      cases file with
      | none => trivial
      | some file => exact ⟨trivial, fun _ => trivial⟩
  apply hvertex.bind
  intro resolved
  cases resolved with
  | error e => trivial
  | ok v => exact ⟨trivial, fun _ => trivial⟩

/-- The children of a script are found by what stands inside. -/
theorem asks_scriptChildren {asks : Question → Prop} (hinside : ∀ q : Question, q.IsInside → asks q) (path : Path)
    (d : Definition) :
  (scriptChildren path d).Asks asks
  := by
  refine ⟨trivial, fun token => ?_⟩
  have hlooks : (⟨asks, fun _ => True, True⟩ : Conduct).looks token := trivial
  have hfound := Finding.heeds_callSiteVertices hinside hlooks d
  apply (asks_of_heeds hfound fun _ => id).bind
  intro found
  have hcontained := Finding.heeds_contained (c := ⟨asks, fun _ => True, True⟩) found []
    s!"while finding outbound connections of script {path}"
  apply (asks_of_heeds hcontained fun _ => id).bind
  intro contained
  cases contained with
  | ok vs => trivial
  | error e => trivial

/-- Once a script was asked for, only what stands inside is asked about. -/
theorem exists_scriptNode_eq {asks : Question → Prop} (hinside : ∀ q : Question, q.IsInside → asks q)
    (searchPath : List Path) (path : Path) :
  ∃ rest, scriptNode searchPath path = ask (.script path searchPath) none >>= rest ∧
    ∀ answer, (rest answer).Asks asks
  := by
  refine ⟨_, rfl, fun answer => ?_⟩
  cases answer with
  | error e => trivial
  | ok d =>
    apply (asks_scriptChildren hinside path d).bind
    intro vs
    apply (asks_nodes vs).bind
    intro children
    obtain ⟨name, kind, module, file, start, stop⟩ := d
    cases file with
    | none => exact ⟨trivial, fun _ => ⟨trivial, fun _ => trivial⟩⟩
    | some file => exact ⟨trivial, fun _ => ⟨trivial, fun _ => ⟨trivial, fun _ => trivial⟩⟩⟩

theorem asks_scriptNode (searchPath : List Path) (path : Path) :
  (scriptNode searchPath path).Asks (Question.IsOn searchPath)
  := by
  have hinside (q : Question) (hq : q.IsInside) : q.IsOn searchPath := hq.isOn
  obtain ⟨rest, heq, hrest⟩ := exists_scriptNode_eq hinside searchPath path
  have hasked : (ask (.script path searchPath) none).Asks (Question.IsOn searchPath) := asks_ask rfl
  rw [heq]
  exact hasked.bind hrest

end Search

/-! ### Roots with equal elements -/

namespace Roots

variable {κ : Type} [BEq κ] {r r' r'' : Roots κ}

/-- Roots that come of resolving some entries, each into an element equal to the one it should have, or into the same
error. -/
def Show (r : Roots κ) (keys : List κ) (out : κ → Except ResolutionError Element) : Prop :=
  ∃ outcomes, r = addAll {} outcomes ∧ outcomes.map (·.1) = keys ∧
    ∀ key outcome, (key, outcome) ∈ outcomes →
      Outcomes.Related (fun a b => a == b) Eq (outcome.map Node.element) (out key)

/-- Roots with equal elements and the same errors. -/
def Equal (r r' : Roots κ) : Prop :=
  r.Agree (fun a b => a == b) Eq r'

theorem Equal.trans (h : r.Equal r') (h' : r'.Equal r'') :
  r.Equal r''
  := by
  let equal (n m : Node) : Prop := (n.element == m.element) = true
  have htrans {a b c : Node} (hab : equal a b) (hbc : equal b c) : equal a c := BEq.trans hab hbc
  exact ⟨fun key => optionRel_trans (R := equal) htrans (h.nodes key) (h'.nodes key),
    fun key => optionRel_trans (R := Eq) .trans (h.failures key) (h'.failures key)⟩

theorem Equal.contains (h : r.Equal r') (key : κ) :
  r.nodes.contains key = r'.nodes.contains key ∧ r.failures.contains key = r'.failures.contains key
  := by
  have hisSome {α : Type} {R : α → α → Prop} {x y : Option α} (hR : Option.Rel R x y) : x.isSome = y.isSome := by
    cases hR <;> rfl
  simp only [Ledger.contains_eq_isSome]
  exact ⟨hisSome (h.nodes key), hisSome (h.failures key)⟩

theorem Show.equal [EquivBEq κ] {keys keys' : List κ} {out out' : κ → Except ResolutionError Element}
    (h : r.Show keys out) (h' : r'.Show keys' out') (hlast : SameLast keys keys')
    (hout : ∀ key ∈ keys, out' key = out key) :
  r.Equal r'
  := by
  obtain ⟨outcomes, rfl, rfl, houtcomes⟩ := h
  obtain ⟨outcomes', rfl, rfl, houtcomes'⟩ := h'
  have hjoin (a b c : Element) (hac : (a == c) = true) (hbc : (b == c) = true) : (a == b) = true :=
    BEq.trans hac (BEq.symm hbc)
  refine agree_addAll hjoin houtcomes ?_ hlast
  intro key outcome hmem
  rw [← hout key (hlast.subset (List.mem_map_of_mem hmem))]
  exact houtcomes' key outcome hmem

end Roots

variable [Parser]

namespace Source

/-! ### Errors of an index -/

theorem Index.outlineNow_of_load_error {x : Index} {p : Path} {e : ProviderError}
    (h : (Index.load files p x).1 = .error e) :
  outlineNow files x.searchPath p = .error e
  := by
  rw [Index.load] at h
  cases hstamp : files.stamp p with
  | error cause =>
    rw [hstamp] at h
    cases h
    exact outlineNow_of_stamp_error hstamp
  | ok stamp =>
    rw [hstamp] at h
    dsimp only at h
    split at h
    case h_1 => cases h
    case h_2 =>
      cases hread : outlineNow files x.searchPath p with
      | ok o =>
        rw [hread] at h
        cases h
      | error cause =>
        rw [hread] at h
        cases h
        rfl

/-- What is made of an outline, and cannot fail, fails with the error of reading the file. -/
theorem Index.bind_eq_error {α β : Type} {x : Index} {p : Path} {e : ProviderError} {f : Outline → α} {g : Outline → β}
    (h : ((Index.load files p >>= fun o => pure (f o) : ExceptT ProviderError (StateM Index) α) x).1 = .error e) :
  ((fresh files x.searchPath).outline p >>= fun o => pure (g o) : ExceptT ProviderError Id β) = .error e
  := by
  let next (o : Outline) : ExceptT ProviderError (StateM Index) α := pure (f o)
  have hbind : (Index.load files p >>= next) x =
      ExceptT.bindCont next (Index.load files p x).1 (Index.load files p x).2 := rfl
  rw [hbind] at h
  cases hload : (Index.load files p x).1 with
  | ok o =>
    rw [hload] at h
    cases h
  | error cause =>
    rw [hload] at h
    cases h
    have houtline : (fresh files x.searchPath).outline p = .error e := Index.outlineNow_of_load_error hload
    rw [houtline]
    rfl

theorem Index.resolve_eq_error {x : Index} {name : String} {e : ProviderError}
    (h : ((x.survey files).resolve name x).1 = .error e) :
  (fresh files x.searchPath).resolve name = .error e
  := by
  have hlocate (name : String) :
      (x.survey files).locate name none = (fresh files x.searchPath).locate name none := rfl
  unfold Survey.resolve at h ⊢
  rw [hlocate] at h
  cases hfound : (fresh files x.searchPath).locate name none with
  | some path =>
    rw [hfound] at h
    exact Index.bind_eq_error h
  | none =>
    rw [hfound] at h
    cases hcut : Receiver.cutAtLastDot name.toList with
    | none =>
      rw [hcut] at h
      cases h
    | some parts =>
      obtain ⟨module, attr⟩ := parts
      rw [hcut] at h
      dsimp only at h ⊢
      rw [hlocate] at h
      cases hfound : (fresh files x.searchPath).locate (String.ofList module) none with
      | none =>
        rw [hfound] at h
        cases h
      | some path =>
        rw [hfound] at h
        exact Index.bind_eq_error h

theorem Index.script_eq_error {x : Index} {p : Path} {e : ProviderError}
    (h : ((x.survey files).script p x).1 = .error e) :
  (fresh files x.searchPath).script p = .error e
  :=
  Index.bind_eq_error h

end Source

/-! ### Roots that an index gives -/

/-- A workspace that answers from an index, in which a search path is spelled as it is when it is in use. -/
structure Workspace.Resolves (w : Workspace Index) (files : FileTree) (searchPath : List Path) : Prop
    extends w.Consults files where
  inUse : (w.analysis.use searchPath).searchPath = searchPath

namespace Workspace.Resolves

variable {w : Workspace Index} (h : w.Resolves files searchPath)

include h

theorem searchPath_prepared {q : Question} (hq : q.IsOn searchPath) :
  ((w.analysis.prepared q).use searchPath).searchPath = searchPath
  := by
  have hagain : ((w.analysis.use searchPath).use searchPath).searchPath = searchPath := by
    rw [Index.searchPath_use, h.inUse]
    exact ite_self _
  cases q with
  | resolve name other =>
    obtain rfl : other = searchPath := hq
    exact hagain
  | script path other =>
    obtain rfl : other = searchPath := hq
    exact hagain
  | _ => exact h.inUse

theorem perform {r : Request} (hr : r.Asks (Question.IsOn searchPath)) :
  (w.perform r).2.Resolves files searchPath
  := by
  refine ⟨h.toConsults.perform r, ?_⟩
  cases r with
  | pose q =>
    rw [h.perform_pose]
    exact h.inUse
  | await q token =>
    rw [h.perform_await]
    split
    · exact h.inUse
    · have hserves := (h.analysis.isCurrent.answer q).2
      have hprepared := h.searchPath_prepared hr
      rw [Index.searchPath_use] at hprepared
      rw [Index.searchPath_use, hserves.searchPath]
      exact hprepared
  | _ => exact h.inUse

theorem run {α : Type} {s : Search α} (hs : s.Asks (Question.IsOn searchPath)) :
  (w.run s).2.Resolves files searchPath
  := by
  induction s generalizing w with
  | done a => exact h
  | wait r next ih => exact ih _ (h.perform hs.1) (hs.2 _)

/-- Names and scripts are answered as when every file is read anew. -/
theorem answer_eq {q : Question} (hq : (w.analysis.prepared q).searchPath = (w.analysis.use searchPath).searchPath) :
  Outcome files (q.Alike files) (w.answerNow q) ((fresh files searchPath).answer q)
  := by
  have houtcome := (h.analysis.isCurrent.answer q).1
  rw [hq, h.inUse] at houtcome
  rwa [h.answerNow_eq]

/-- A module name has an element equal to the one that it has when every file is read anew, or the same error. -/
theorem related_moduleNode (name : String) :
  Outcomes.Related (fun a b => a == b) Eq ((w.run (Search.moduleNode searchPath name)).1.map Node.element)
    (moduleOutcome (fresh files searchPath).answer searchPath name)
  := by
  have houtcome : Outcome files (Option.Rel (Definition.Alike files)) (w.answerNow (.resolve name searchPath))
      ((fresh files searchPath).answer (.resolve name searchPath)) := h.answer_eq (q := .resolve name searchPath) rfl
  have herror {e : ProviderError} (he : w.answerNow (.resolve name searchPath) = .error e) :
      (fresh files searchPath).answer (.resolve name searchPath) = .error e := by
    rw [h.answerNow_eq] at he
    have hread := Index.resolve_eq_error (x := w.analysis.use searchPath) he
    rwa [h.inUse] at hread
  rw [w.run_moduleNode, moduleOutcome, moduleOutcome]
  cases hanswer : w.answerNow (.resolve name searchPath) with
  | error e =>
    rw [herror hanswer]
    exact .error rfl
  | ok found =>
    rw [hanswer] at houtcome
    generalize (fresh files searchPath).answer (.resolve name searchPath) = anew at houtcome
    cases houtcome with
    | ok hfound =>
      cases hfound with
      | none => exact .error rfl
      | some halike =>
        obtain ⟨hpath, hname, hkind, hmodule, hstart, hstop⟩ := Definition.beq_iff.mp halike.beq
        exact .ok (Element.beq_iff.mpr
          ⟨hpath, CallPosition.beq_iff.mpr ⟨hpath, rfl, rfl⟩, hname, hkind, hmodule, rfl, hstart, hstop⟩)

/-- A script has an element equal to the one that it has when every file is read anew, or the same error. -/
theorem related_scriptNode (path : Path) :
  Outcomes.Related (fun a b => a == b) Eq ((w.run (Search.scriptNode searchPath path)).1.map Node.element)
    (scriptOutcome (fresh files searchPath).answer searchPath files path)
  := by
  have houtcome : Outcome files (Definition.Alike files) (w.answerNow (.script path searchPath))
      ((fresh files searchPath).answer (.script path searchPath)) := h.answer_eq (q := .script path searchPath) rfl
  have herror {e : ProviderError} (he : w.answerNow (.script path searchPath) = .error e) :
      (fresh files searchPath).answer (.script path searchPath) = .error e := by
    rw [h.answerNow_eq] at he
    have hread := Index.script_eq_error (x := w.analysis.use searchPath) he
    rwa [h.inUse] at hread
  rw [w.run_scriptNode, h.files, scriptOutcome, scriptOutcome, scriptAnswer, scriptAnswer]
  cases hanswer : w.answerNow (.script path searchPath) with
  | error e =>
    rw [herror hanswer]
    exact .error rfl
  | ok d =>
    rw [hanswer] at houtcome
    generalize (fresh files searchPath).answer (.script path searchPath) = anew at houtcome
    cases houtcome with
    | ok halike =>
      refine .ok (Element.beq_iff.mpr ?_)
      rw [Search.scriptElement, Search.scriptElement, halike.name]
      exact Element.beq_iff.mp BEq.rfl

/-- Entries are resolved one after the other, in a workspace that answers from an index. -/
theorem exists_run_rootsOf {κ : Type} [BEq κ] {resolve : κ → Search (Except ResolutionError Node)}
    (hresolve : ∀ key, (resolve key).Asks (Question.IsOn searchPath)) (r : Roots κ) (keys : List κ) :
  (w.run (Search.rootsOf resolve r keys)).2.Resolves files searchPath ∧
    ∃ outcomes, (w.run (Search.rootsOf resolve r keys)).1 = r.addAll outcomes ∧ outcomes.map (·.1) = keys ∧
      ∀ key outcome, (key, outcome) ∈ outcomes →
        ∃ w' : Workspace Index, w'.Resolves files searchPath ∧ outcome = (w'.run (resolve key)).1
  :=
  Workspace.exists_run_rootsOf (·.Resolves files searchPath) (fun key _ h => h.run (hresolve key))
    (fun line _ h => h.run (Search.asks_log line)) h r keys

end Workspace.Resolves

/-! ### Roots of an opened project -/

namespace Project

/-- What the modules of a project are to be resolved into over some files. -/
def moduleAnew (s : Settings) (files : FileTree) : String → Except ResolutionError Element :=
  moduleOutcome (fresh files s.sysPath).answer s.sysPath

/-- What the scripts of a project are to be resolved into over some files. -/
def scriptAnew (s : Settings) (files : FileTree) : Path → Except ResolutionError Element :=
  scriptOutcome (fresh files s.sysPath).answer s.sysPath files

/-- The roots of an opened project are what its settings are resolved into when every file is read anew. -/
theorem show_of_openStored {δ : Type} [SettingsStore δ] {store : δ} {place : Option Path} {user : UserScope}
    {runtime : List Path}
    {p : Project δ} {w w' : Workspace Index} (hprovider : w.provider = Index.provider) (hanalysis : w.analysis = {})
    (h : openStored store place user runtime w = (.ok p, w')) :
  p.modules.Show p.settings.modules (moduleAnew p.settings w.files) ∧
    p.scripts.Show p.settings.scripts (scriptAnew p.settings w.files)
  := by
  obtain ⟨-, -, log, -, -, -, hmodules, hscripts⟩ := exists_merged_of_openStored h
  have hbegun : Workspace.Resolves { w with searchPath := p.settings.sysPath, log } w.files p.settings.sysPath := by
    refine ⟨⟨?_, hprovider, rfl⟩, ?_⟩
    · rw [hanalysis]
      exact .empty
    · rw [hanalysis, Index.searchPath_use]
      cases p.settings.sysPath <;> rfl
  obtain ⟨hresolved, outcomes, hrun, hkeys, houtcomes⟩ :=
    hbegun.exists_run_rootsOf (Search.asks_moduleNode p.settings.sysPath) {} p.settings.modules
  obtain ⟨-, outcomes', hrun', hkeys', houtcomes'⟩ :=
    hresolved.exists_run_rootsOf (Search.asks_scriptNode p.settings.sysPath) {} p.settings.scripts
  refine ⟨⟨outcomes, hmodules.trans hrun, hkeys, ?_⟩, ⟨outcomes', hscripts.trans hrun', hkeys', ?_⟩⟩
  · intro name outcome hmem
    obtain ⟨w', hw', rfl⟩ := houtcomes name outcome hmem
    exact hw'.related_moduleNode name
  · intro path outcome hmem
    obtain ⟨w', hw', rfl⟩ := houtcomes' path outcome hmem
    exact hw'.related_scriptNode path

end Project

end CallGraph
