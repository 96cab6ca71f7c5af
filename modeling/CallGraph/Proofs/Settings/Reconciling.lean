import CallGraph.Proofs.Search.Recorded
import CallGraph.Proofs.Settings.Anew
import CallGraph.Provider.Disturbed
import CallGraph.Provider.Scripted

/-!
# Changing what is tracked

When another list of modules or scripts is to be tracked, the entries that the list before lacks are resolved, one after
the other and whatever comes of each, and nothing else is.  Only then do entries that are dropped lose their nodes.
`Roots.Reconciles` says what is reported: the nodes of the dropped entries, in order and each once, and those of the
entries that were resolved, in the order in which this first succeeded.  The latter is the order in which they stand in
the list, unless an entry fails where it stands first and is resolved where it stands again.
-/

namespace CallGraph

open Project (added appendMissing reconcile)

variable {σ κ : Type} [BEq κ]

namespace Roots

/-! ### Outcomes of entries -/

/-- The entries that were resolved, in order. -/
def resolvedKeys : List (κ × Except ResolutionError Node) → List κ
  | [] => []
  | (key, .ok _) :: rest => key :: resolvedKeys rest
  | (_, .error _) :: rest => resolvedKeys rest

/-- The node that came last for an entry. -/
def lastNode? (outcomes : List (κ × Except ResolutionError Node)) (key : κ) : Option Node :=
  outcomes.reverse.findSome? (nodeFor key)

/-- The error that came last for an entry. -/
def lastError? (outcomes : List (κ × Except ResolutionError Node)) (key : κ) : Option ResolutionError :=
  outcomes.reverse.findSome? (errorFor key)

/-- An entry that fails where it stands first is not resolved where it stands again. -/
def FailsForGood (outcomes : List (κ × Except ResolutionError Node)) : Prop :=
  ∀ key k e, outcomes.find? (·.1 == key) = some (k, .error e) → lastNode? outcomes key = none

/-- How roots for one list of entries are brought in line with another one, and what is reported, given what came of
the entries that were resolved. -/
structure Reconciles (before : Roots κ) (previous new : List κ) (outcomes : List (κ × Except ResolutionError Node))
    (change : SettingsChange) (after : Roots κ) : Prop where
  /-- The entries that the list before lacks were resolved, in order. -/
  resolved : outcomes.map (·.1) = added previous new
  /-- The nodes of the entries that the new list lacks are stale, in the order of these and each once. -/
  stale : change.stale = (distinct (added new previous)).filterMap before.nodes.find?
  /-- The nodes of the entries that were resolved are additional, in the order in which this first succeeded. -/
  additional : change.additional = (distinct (resolvedKeys outcomes)).filterMap (lastNode? outcomes)
  /-- This is the order in which they first stand in the list, unless an entry fails there and is resolved behind. -/
  ordered : FailsForGood outcomes → change.additional = (distinct (added previous new)).filterMap (lastNode? outcomes)
  changed : change.changed = true ↔ change.stale ≠ [] ∨ change.additional ≠ []
  /-- Entries of both lists keep the nodes and the errors that they have. -/
  kept : ∀ key, previous.contains key = true → new.contains key = true →
    after.nodes.find? key = before.nodes.find? key ∧ after.failures.find? key = before.failures.find? key
  /-- New entries have the nodes and the errors that came last. -/
  gained : ∀ key, previous.contains key = false → new.contains key = true →
    after.nodes.find? key = (lastNode? outcomes key).or (before.nodes.find? key) ∧
      after.failures.find? key = (lastError? outcomes key).or (before.failures.find? key)
  /-- Dropped entries have neither. -/
  dropped : ∀ key, previous.contains key = true → new.contains key = false →
    after.nodes.find? key = none ∧ after.failures.find? key = none

variable [EquivBEq κ]

/-- A key that has an entry keeps its place, and another one comes behind all. -/
theorem keys_insert {ν : Type} (m : Ledger κ ν) (key : κ) (value : ν) :
  (m.insert key value).keys = appendMissing m.keys [key]
  := by
  have hcontains : m.keys.contains key = m.contains key := by
    rw [Bool.eq_iff_iff, List.contains_iff_exists_mem_beq, Ledger.contains_iff]
    simp only [BEq.comm]
  rw [appendMissing_cons, hcontains]
  split
  case isTrue hthere => exact m.keys_insert_of_contains value hthere
  case isFalse hnot => exact m.keys_insert_of_not_contains value (Bool.eq_false_iff.mpr hnot)

/-- The entries that have nodes, in the order in which they first got one. -/
theorem keys_addAll (outcomes : List (κ × Except ResolutionError Node)) :
  (addAll {} outcomes).nodes.keys = distinct (resolvedKeys outcomes)
  := by
  have hmore (r : Roots κ) : (r.addAll outcomes).nodes.keys = appendMissing r.nodes.keys (resolvedKeys outcomes) := by
    induction outcomes generalizing r with
    | nil => rfl
    | cons o outcomes ih =>
      obtain ⟨key, outcome⟩ := o
      refine (ih (r.add key outcome)).trans ?_
      cases outcome with
      | ok node =>
        rw [add, keys_insert]
        rfl
      | error e => rfl
  exact hmore {}

omit [EquivBEq κ] in
/-- No two entries with nodes are equal. -/
theorem distinct_addAll (outcomes : List (κ × Except ResolutionError Node)) :
  (addAll {} outcomes).nodes.Distinct ∧ (addAll {} outcomes).failures.Distinct
  := by
  have hmore (r : Roots κ) (h : r.nodes.Distinct ∧ r.failures.Distinct) :
      (r.addAll outcomes).nodes.Distinct ∧ (r.addAll outcomes).failures.Distinct := by
    induction outcomes generalizing r with
    | nil => exact h
    | cons o outcomes ih =>
      obtain ⟨key, outcome⟩ := o
      apply ih (r.add key outcome)
      cases outcome with
      | ok node => exact ⟨h.1.insert key node, h.2⟩
      | error e => exact ⟨h.1, h.2.insert key e⟩
  exact hmore {} ⟨.nil, .nil⟩

/-- The nodes of the roots, in order. -/
theorem values_addAll (outcomes : List (κ × Except ResolutionError Node)) :
  (addAll {} outcomes).nodes.values = (distinct (resolvedKeys outcomes)).filterMap (lastNode? outcomes)
  := by
  rw [(distinct_addAll outcomes).1.values_eq, keys_addAll]
  exact congrArg (List.filterMap · _) (funext fun key => (find?_addAll outcomes key).1)

omit [EquivBEq κ] in
/-- Some node came for a key exactly if an entry equal to it was resolved. -/
theorem isSome_lastNode?_iff {outcomes : List (κ × Except ResolutionError Node)} {key : κ} :
  (lastNode? outcomes key).isSome = true ↔ ∃ k node, (k, .ok node) ∈ outcomes ∧ (k == key) = true
  := by
  rw [lastNode?, List.findSome?_isSome_iff]
  constructor
  · rintro ⟨⟨k, outcome⟩, hmem, hnode⟩
    cases outcome with
    | error e => cases hnode
    | ok node =>
      rw [nodeFor] at hnode
      split at hnode
      case isTrue hkey => exact ⟨k, node, List.mem_reverse.mp hmem, hkey⟩
      case isFalse => cases hnode
  · rintro ⟨k, node, hmem, hkey⟩
    refine ⟨(k, .ok node), List.mem_reverse.mpr hmem, ?_⟩
    rw [nodeFor, if_pos hkey]
    rfl

/-- The entries that were resolved are, but for repeats, those for which a node came, if each of these was resolved
where it stands first or is there already. -/
theorem appendMissing_resolvedKeys {came : κ → Bool} (hequal : ∀ a b, (a == b) = true → came a = came b)
    {outcomes : List (κ × Except ResolutionError Node)} (hok : ∀ key node, (key, .ok node) ∈ outcomes → came key = true)
    (kept : List κ) (hfirst : ∀ key, came key = true → kept.contains key = false →
      ∃ k node, outcomes.find? (·.1 == key) = some (k, .ok node)) :
  appendMissing kept (resolvedKeys outcomes) = appendMissing kept ((outcomes.map (·.1)).filter came)
  := by
  induction outcomes generalizing kept with
  | nil => rfl
  | cons o outcomes ih =>
    obtain ⟨head, outcome⟩ := o
    have htail (key : κ) (node : Node) (hmem : (key, .ok node) ∈ outcomes) : came key = true :=
      hok key node (List.mem_cons_of_mem _ hmem)
    -- A key that differs from the head stands first behind it.
    have hbehind {key : κ} (hkey : (head == key) = false) (hcame : came key = true)
        (hkept : kept.contains key = false) : ∃ k node, outcomes.find? (·.1 == key) = some (k, .ok node) := by
      have hfound := hfirst key hcame hkept
      rwa [List.find?_cons, hkey] at hfound
    rw [List.map_cons]
    cases outcome with
    | ok node =>
      rw [List.filter_cons_of_pos (hok head node List.mem_cons_self), resolvedKeys, appendMissing_cons,
        appendMissing_cons]
      apply ih htail _
      intro key hcame hnot
      obtain ⟨hkept, hkey⟩ := Bool.or_eq_false_iff.mp ((contains_appendMissing_singleton kept head key).symm.trans hnot)
      exact hbehind hkey hcame hkept
    | error e =>
      rw [resolvedKeys]
      cases hcame : came head with
      | true =>
        have hthere : kept.contains head = true := by
          by_contra hnot
          obtain ⟨k, node, hfound⟩ := hfirst head hcame (Bool.eq_false_iff.mpr hnot)
          rw [List.find?_cons, BEq.rfl] at hfound
          cases hfound
        rw [List.filter_cons_of_pos hcame, appendMissing_cons, if_pos hthere]
        apply ih htail _
        intro key hkey hnot
        apply hbehind _ hkey hnot
        apply Bool.eq_false_iff.mpr
        intro hhere
        rw [← List.contains_congr hhere, hthere] at hnot
        cases hnot
      | false =>
        rw [List.filter_cons_of_neg (Bool.eq_false_iff.mp hcame)]
        apply ih htail _
        intro key hkey hnot
        apply hbehind _ hkey hnot
        apply Bool.eq_false_iff.mpr
        intro hhere
        rw [← hequal _ _ hhere, hcame] at hkey
        cases hkey

/-- Where what fails first fails for good, an entry that is resolved is resolved where it stands first. -/
theorem FailsForGood.filterMap_resolvedKeys {outcomes : List (κ × Except ResolutionError Node)}
    (h : FailsForGood outcomes) :
  (distinct (resolvedKeys outcomes)).filterMap (lastNode? outcomes) =
    (distinct (outcomes.map (·.1))).filterMap (lastNode? outcomes)
  := by
  have hequal (a b : κ) (hab : (a == b) = true) : (lastNode? outcomes a).isSome = (lastNode? outcomes b).isSome := by
    rw [lastNode?, lastNode?, ← (find?_addAll outcomes a).1, ← (find?_addAll outcomes b).1, Ledger.find?_congr _ hab]
  have hfirst (key : κ) (hcame : (lastNode? outcomes key).isSome = true) :
      ∃ k node, outcomes.find? (·.1 == key) = some (k, .ok node) := by
    obtain ⟨k, node, hmem, hkey⟩ := isSome_lastNode?_iff.mp hcame
    have hsome : (outcomes.find? (·.1 == key)).isSome = true := List.find?_isSome.mpr ⟨_, hmem, hkey⟩
    obtain ⟨⟨k, outcome⟩, hfirst⟩ := Option.isSome_iff_exists.mp hsome
    cases outcome with
    | ok node => exact ⟨k, node, hfirst⟩
    | error e =>
      rw [h key k e hfirst] at hcame
      cases hcame
  have hkeys := appendMissing_resolvedKeys hequal
    (fun key node hmem => isSome_lastNode?_iff.mpr ⟨key, node, hmem, BEq.rfl⟩) [] fun key hcame _ => hfirst key hcame
  rw [distinct_eq, distinct_eq, hkeys, ← List.filter_nil, ← filter_appendMissing hequal, List.filterMap_filter]
  congr 1
  funext key
  cases lastNode? outcomes key <;> rfl

/-- Nothing came for a key that equals none of the entries. -/
theorem lastNode?_eq_none {outcomes : List (κ × Except ResolutionError Node)} {key : κ}
    (h : (outcomes.map (·.1)).contains key = false) :
  lastNode? outcomes key = none ∧ lastError? outcomes key = none
  := by
  rw [lastNode?, lastError?, List.findSome?_eq_none_iff, List.findSome?_eq_none_iff]
  have hnot {o : κ × Except ResolutionError Node} (ho : o ∈ outcomes.reverse) : (o.1 == key) = false := by
    rw [BEq.comm]
    exact contains_eq_false_iff.mp h _ (List.mem_map_of_mem (List.mem_reverse.mp ho))
  constructor
  · rintro ⟨key', outcome⟩ ho
    cases outcome with
    | ok node => rw [nodeFor, hnot ho, if_neg Bool.false_ne_true]
    | error e => rfl
  · rintro ⟨key', outcome⟩ ho
    cases outcome with
    | ok node => rfl
    | error e => rw [errorFor, hnot ho, if_neg Bool.false_ne_true]

/-- Roots are reconciled with the outcomes of the entries that are new. -/
theorem reconciles (before : Roots κ) {previous new : List κ} {outcomes : List (κ × Except ResolutionError Node)}
    (h : outcomes.map (·.1) = added previous new) :
  before.Reconciles previous new outcomes (reconcile previous new before (addAll {} outcomes)).1
    (reconcile previous new before (addAll {} outcomes)).2
  := by
  have hkeys (key : κ) : (outcomes.map (·.1)).contains key = (new.contains key && !previous.contains key) := by
    rw [h, added, Tracks.contains_filter_not_contains]
  have hdropped (key : κ) : (added new previous).contains key = (previous.contains key && !new.contains key) := by
    rw [added, Tracks.contains_filter_not_contains]
  have hnodes : (reconcile previous new before (addAll {} outcomes)).2.nodes =
      ((added new previous).foldl Ledger.erase before.nodes).extend (addAll {} outcomes).nodes := by
    rw [← Tracks.snd_foldl_stale (added new previous) [] before.nodes]
    rfl
  have hfound (key : κ) :
      (reconcile previous new before (addAll {} outcomes)).2.nodes.find? key = (lastNode? outcomes key).or
        (if previous.contains key && !new.contains key then none else before.nodes.find? key) ∧
      (reconcile previous new before (addAll {} outcomes)).2.failures.find? key = (lastError? outcomes key).or
        (if previous.contains key && !new.contains key then none else before.failures.find? key) := by
    constructor
    · rw [hnodes, Ledger.find?_extend _ (distinct_addAll outcomes).1, Ledger.find?_foldl_erase, hdropped,
        (find?_addAll outcomes key).1, lastNode?]
    · have hfailures : (reconcile previous new before (addAll {} outcomes)).2.failures =
          ((added new previous).foldl Ledger.erase before.failures).extend (addAll {} outcomes).failures := rfl
      rw [hfailures, Ledger.find?_extend _ (distinct_addAll outcomes).2, Ledger.find?_foldl_erase, hdropped,
        (find?_addAll outcomes key).2, lastError?]
  have hold (key : κ) (hkey : (new.contains key && !previous.contains key) = false) :
      (reconcile previous new before (addAll {} outcomes)).2.nodes.find? key =
        (if previous.contains key && !new.contains key then none else before.nodes.find? key) ∧
      (reconcile previous new before (addAll {} outcomes)).2.failures.find? key =
        (if previous.contains key && !new.contains key then none else before.failures.find? key) := by
    obtain ⟨hnode, herror⟩ := lastNode?_eq_none ((hkeys key).trans hkey)
    rw [(hfound key).1, (hfound key).2, hnode, herror]
    exact ⟨rfl, rfl⟩
  have hadditional : (reconcile previous new before (addAll {} outcomes)).1.additional =
      (distinct (resolvedKeys outcomes)).filterMap (lastNode? outcomes) := values_addAll outcomes
  have hchanged : (reconcile previous new before (addAll {} outcomes)).1.changed =
      (!(reconcile previous new before (addAll {} outcomes)).1.stale.isEmpty ||
        !(reconcile previous new before (addAll {} outcomes)).1.additional.isEmpty) := rfl
  constructor
  case resolved => exact h
  case stale => exact stale_reconcile before _
  case additional => exact hadditional
  case ordered =>
    intro hfails
    rw [← h, ← hfails.filterMap_resolvedKeys, hadditional]
  case changed =>
    rw [hchanged]
    simp only [Bool.or_eq_true, Bool.not_eq_true', List.isEmpty_eq_false_iff]
  case kept =>
    intro key hprevious hnew
    have hsame := hold key (by rw [hprevious, hnew]; rfl)
    rwa [hprevious, hnew] at hsame
  case gained =>
    intro key hprevious hnew
    have hgained := hfound key
    rwa [hprevious] at hgained
  case dropped =>
    intro key hprevious hnew
    have hgone := hold key (by rw [hprevious, hnew]; rfl)
    rwa [hprevious, hnew] at hgone

end Roots

/-! ### What is asked -/

/-- Whether a question asks for what an entry stands for. -/
def Question.resolves : Question → Bool
  | resolve _ _ | script _ _ => true
  | callSites _ | targets _ | scopeNames _ | usages _ _ | enclosing _ => false

namespace Workspace

/-- For a module nothing but its name is asked about. -/
theorem questions_moduleNode (searchPath : List Path) (name : String) (w : Workspace σ) :
  w.questions (Search.moduleNode searchPath name) = [.resolve name searchPath]
  := by
  rw [Search.moduleNode, questions_bind, Search.moduleVertex, questions_bind, questions_ask, run_bind]
  rcases (w.run (Search.ask (.resolve name searchPath) none)).1 with e | _ | ⟨name, kind, module, file, start, stop⟩
  · rfl
  · rfl
  · cases file <;> rfl

/-- A script is asked for once, and no other entry is. -/
theorem filter_questions_scriptNode (searchPath : List Path) (path : Path) (w : Workspace σ) :
  (w.questions (Search.scriptNode searchPath path)).filter Question.resolves = [.script path searchPath]
  := by
  have hinside (q : Question) (hq : q.IsInside) : q.resolves = false := by
    cases q <;> first | rfl | cases hq
  obtain ⟨rest, heq, hrest⟩ := Search.exists_scriptNode_eq hinside searchPath path
  have hnone (answer : Except ProviderError Definition) (u : Workspace σ) :
      (u.questions (rest answer)).filter Question.resolves = [] := by
    rw [List.filter_eq_nil_iff]
    intro q hq
    rw [mem_questions (hrest answer) hq]
    exact Bool.false_ne_true
  rw [heq, questions_bind, questions_ask, List.filter_append, hnone, List.append_nil]
  rfl

/-- To resolve entries is to ask for each of them, in order. -/
theorem filter_questions_rootsOf {P : Question → Bool} {question : κ → Question}
    {resolve : κ → Search (Except ResolutionError Node)}
    (hresolve : ∀ key (w : Workspace σ), (w.questions (resolve key)).filter P = [question key])
    (r : Roots κ) (keys : List κ) (w : Workspace σ) :
  (w.questions (Search.rootsOf resolve r keys)).filter P = keys.map question
  := by
  induction keys generalizing r w with
  | nil => rfl
  | cons key keys ih =>
    rw [Search.rootsOf, questions_bind, List.filter_append, hresolve, List.map_cons, List.singleton_append]
    congr 1
    rcases w.run (resolve key) with ⟨e | node, w₁⟩
    · exact ih _ _
    · exact ih _ _

/-- Entries are resolved one after the other, with the same outcomes if the provider's questions are noted, among which
are those for the entries. -/
theorem exists_run_noted {P : Question → Bool} {question : κ → Question}
    {resolve : κ → Search (Except ResolutionError Node)}
    (hresolve : ∀ key (w : Workspace σ), (w.questions (resolve key)).filter P = [question key])
    (keys : List κ) (w : Workspace σ) :
  ∃ outcomes w₁ asked, w.ResolvesAll resolve outcomes w₁ ∧ outcomes.map (·.1) = keys ∧
    asked.filter P = keys.map question ∧
    w.run (Search.rootsOf resolve {} keys) = (Roots.addAll {} outcomes, w₁) ∧
    (w.noted []).run (Search.rootsOf resolve {} keys) = (Roots.addAll {} outcomes, w₁.noted asked)
  := by
  obtain ⟨outcomes, hall, hroots, hkeys⟩ := w.exists_resolvesAll resolve {} keys
  refine ⟨outcomes, _, _, hall, hkeys, filter_questions_rootsOf hresolve {} keys w, ?_, ?_⟩
  · rw [← hroots]
  · rw [run_noted, ← hroots]
    rfl

end Workspace

/-! ### Replacing what is tracked -/

namespace Project

variable {δ : Type}

/-- A project that tracks other modules. -/
def withModules (p : Project δ) (new : List String) (modules : Roots String) : Project δ :=
  { p with modules, settings := { p.settings with modules := new } }

/-- A project that tracks other scripts. -/
def withScripts (p : Project δ) (new : List Path) (scripts : Roots Path) : Project δ :=
  { p with scripts, settings := { p.settings with scripts := new } }

theorem setSettings_modules [SettingsStore δ] {p : Project δ} {value : Json} {new : List String}
    (h : Category.modules.decodeValue value = .ok new) (w : Workspace σ) :
  p.setSettings .modules value w = .ok (p.setModules new w)
  := by
  rw [setSettings, h]
  rfl

theorem setSettings_scripts [SettingsStore δ] {p : Project δ} {value : Json} {new : List Path}
    (h : Category.scripts.decodeValue value = .ok new) (w : Workspace σ) :
  p.setSettings .scripts value w = .ok (p.setScripts new w)
  := by
  rw [setSettings, h]
  rfl

/-- To track other modules or scripts is to resolve, before any node is dropped, exactly the entries that the list
before lacks, in order and whatever comes of each; the roots are reconciled with what came of them, and no other entry is
asked for. -/
theorem setSettings_reconciles [SettingsStore δ] (p : Project δ) (value : Json) (w : Workspace σ) :
  (∀ new, Category.modules.decodeValue value = .ok new →
    ∃ outcomes w₁ change modules,
      w.ResolvesAll (Search.moduleNode p.settings.sysPath) outcomes w₁ ∧
      p.modules.Reconciles p.settings.modules new outcomes change modules ∧
      p.setSettings .modules value w =
        .ok (change, p.withModules new modules, (p.withModules new modules).refreshScope w₁) ∧
      p.setSettings .modules value (w.noted []) =
        .ok (change, p.withModules new modules, (p.withModules new modules).refreshScope
          (w₁.noted ((added p.settings.modules new).map (.resolve · p.settings.sysPath))))) ∧
  (∀ new, Category.scripts.decodeValue value = .ok new →
    ∃ outcomes w₁ change scripts asked,
      w.ResolvesAll (Search.scriptNode p.settings.sysPath) outcomes w₁ ∧
      p.scripts.Reconciles p.settings.scripts new outcomes change scripts ∧
      p.setSettings .scripts value w =
        .ok (change, p.withScripts new scripts, (p.withScripts new scripts).refreshScope w₁) ∧
      p.setSettings .scripts value (w.noted []) =
        .ok (change, p.withScripts new scripts, (p.withScripts new scripts).refreshScope (w₁.noted asked)) ∧
      asked.filter Question.resolves = (added p.settings.scripts new).map (.script · p.settings.sysPath))
  := by
  constructor
  · intro new hnew
    -- All that is asked is for modules.
    obtain ⟨outcomes, w₁, asked, hall, hkeys, hasked, hrun, hnoted⟩ := Workspace.exists_run_noted (P := fun _ => true)
      (fun name w => by rw [Workspace.questions_moduleNode p.settings.sysPath name w]; rfl)
      (added p.settings.modules new) w
    rw [List.filter_eq_self.mpr fun _ _ => rfl] at hasked
    subst hasked
    refine ⟨outcomes, w₁, _, _, hall, Roots.reconciles p.modules hkeys, ?_, ?_⟩
    · rw [setSettings_modules hnew, setModules, Search.moduleRoots, hrun]
      rfl
    · rw [setSettings_modules hnew, setModules, Search.moduleRoots, hnoted]
      rfl
  · intro new hnew
    obtain ⟨outcomes, w₁, asked, hall, hkeys, hasked, hrun, hnoted⟩ :=
      Workspace.exists_run_noted (Workspace.filter_questions_scriptNode p.settings.sysPath)
        (added p.settings.scripts new) w
    refine ⟨outcomes, w₁, _, _, asked, hall, Roots.reconciles p.scripts hkeys, ?_, ?_, hasked⟩
    · rw [setSettings_scripts hnew, setScripts, Search.scriptRoots, hrun]
      rfl
    · rw [setSettings_scripts hnew, setScripts, Search.scriptRoots, hnoted]
      rfl

/-! ### Lists with repeats -/

/-- A module of a name. -/
def moduleNamed (name : String) : Definition :=
  ⟨name, Kind.moduleKind, name, none, .known 1 0, .unknown⟩

/-- A workspace with three modules and a script. -/
def shelf : Workspace Scripted where
  provider := Scripted.provider
  analysis :=
    { modules := ["a", "b", "c"].map fun name => (name, moduleNamed name)
      scripts := [(⟨"b"⟩, moduleNamed "b")] }
  files := {}
  config := {}

/-- A project that tracks two of the modules. -/
def browsed : Project MemoryStore × Workspace Scripted :=
  (setModules { store := ({} : MemoryStore) } ["a", "b"] shelf).2

/-- One of two modules stays, and of the entries that come in, with a repeat, all are asked for. -/
theorem setSettings_reconciles_browsed :
  Category.modules.decodeValue (.array [.text "b", .text "c", .text "b"]) = .ok ["b", "c", "b"] ∧
  Category.scripts.decodeValue (.array [.text "b", .text "c", .text "b"]) =
    .ok [(⟨"b"⟩ : Path), ⟨"c"⟩, ⟨"b"⟩] ∧
  (∃ outcomes change modules,
    browsed.1.modules.Reconciles ["a", "b"] ["b", "c", "b"] outcomes change modules ∧
    outcomes.map (·.1) = ["c"] ∧ change.stale.map (·.element.name) = ["a"]) ∧
  (∃ outcomes change scripts, ∃ asked : List Question,
    browsed.1.scripts.Reconciles [] [⟨"b"⟩, ⟨"c"⟩, ⟨"b"⟩] outcomes change scripts ∧
    asked.filter Question.resolves = [.script ⟨"b"⟩ [], .script ⟨"c"⟩ [], .script ⟨"b"⟩ []])
  := by
  have hmodules : Category.modules.decodeValue (.array [.text "b", .text "c", .text "b"]) = .ok ["b", "c", "b"] := rfl
  have hscripts : Category.scripts.decodeValue (.array [.text "b", .text "c", .text "b"]) =
    .ok [(⟨"b"⟩ : Path), ⟨"c"⟩, ⟨"b"⟩] := rfl
  obtain ⟨hleft, hright⟩ := setSettings_reconciles browsed.1 (.array [.text "b", .text "c", .text "b"]) browsed.2
  obtain ⟨outcomes, -, change, modules, -, hreconciles, -⟩ := hleft _ hmodules
  obtain ⟨outcomes', -, change', scripts, asked, -, hreconciles', -, -, hasked⟩ := hright _ hscripts
  refine ⟨hmodules, hscripts, ⟨outcomes, change, modules, hreconciles, ?_, ?_⟩,
    ⟨outcomes', change', scripts, asked, hreconciles', hasked⟩⟩
  · exact hreconciles.resolved
  · rw [hreconciles.stale]
    decide

/-- A workspace in which a module cannot be resolved the first time that it is asked for. -/
def unready : Workspace (Disturbed Scripted) where
  provider := Disturbed.provider Scripted.provider
  analysis :=
    { inner := { modules := ["a", "b"].map fun name => (name, moduleNamed name) }
      disturbance := some
        { mishap := .refuse (.failed "injected")
          isMeant := fun
            | .resolve name _ => name == "a"
            | _ => false } }
  files := {}
  config := {}

/-- An entry that fails first and is resolved where it stands again comes behind those in between, although it stands
before them in the list. -/
theorem not_ordered_unready :
  ∃ change p w,
    setSettings { store := ({} : MemoryStore) } .modules (.array [.text "a", .text "b", .text "a"]) unready =
      .ok (change, p, w) ∧
    change.additional.map (·.element.name) = ["b", "a"] ∧
    ((distinct (added [] ["a", "b", "a"])).filterMap p.modules.nodes.find?).map (·.element.name) = ["a", "b"]
  := by
  refine ⟨_, _, _, rfl, ?_, ?_⟩
  · decide
  · decide

end Project

end CallGraph
