import CallGraph.Proofs.Search.Tracked
import CallGraph.Proofs.Settings.Outcomes

/-!
# What shows a project

Every node that is made when entries are resolved shows one of the entries and has a number of its own.  A module or a
script that a project tracks is shown in it by a node whose element is the same whenever it was resolved, if answers do
not tell equal questions apart and the files of equal scripts are at equal places.  So where the entries of a project
are replaced, what shows an entry that is tracked no longer is among the nodes that go.
-/

namespace CallGraph

variable {σ : Type} {A : Setting} {seen : FileTree → Path → Prop}

/-- Nodes of which no two have the same number, with numbers of a stretch. -/
structure Node.Drawn (first next : Nat) (nodes : List Node) : Prop where
  numbered : Numbered nodes
  within : ∀ node ∈ nodes, first ≤ node.number ∧ node.number < next

/-- Nodes with earlier numbers and nodes with later ones. -/
theorem Node.Drawn.append {first next last : Nat} {nodes others : List Node} (h : Drawn first next nodes)
    (h' : Drawn next last others) (hfirst : first ≤ next) (hnext : next ≤ last) :
  Drawn first last (nodes ++ others)
  := by
  have hapart (a b : Node) (ha : a ∈ nodes) (hb : b ∈ others) : a.number ≠ b.number := by
    have hnumber := (h.within a ha).2
    have hnumber' := (h'.within b hb).1
    omega
  constructor
  · intro a ha b hb hsame
    have hsame' : a.number = b.number := eq_of_beq hsame
    rcases List.mem_append.mp ha with ha | ha
    · rcases List.mem_append.mp hb with hb | hb
      · exact h.numbered a ha b hb hsame
      · exact absurd hsame' (hapart a b ha hb)
    · rcases List.mem_append.mp hb with hb | hb
      · exact absurd hsame'.symm (hapart b a hb ha)
      · exact h'.numbered a ha b hb hsame
  · intro node hnode
    rcases List.mem_append.mp hnode with hnode | hnode
    · obtain ⟨hle, hlt⟩ := h.within node hnode
      exact ⟨hle, Nat.lt_of_lt_of_le hlt hnext⟩
    · obtain ⟨hle, hlt⟩ := h'.within node hnode
      exact ⟨Nat.le_trans hfirst hle, hlt⟩

theorem Node.Drawn.nil (first next : Nat) :
  Drawn first next []
  :=
  ⟨nofun, nofun⟩

theorem Node.Drawn.mono {first next next' : Nat} {nodes others : List Node} (h : Drawn first next nodes)
    (hnodes : others ⊆ nodes) (hnext : next ≤ next') :
  Drawn first next' others
  :=
  ⟨fun a ha b hb => h.numbered a (hnodes ha) b (hnodes hb),
    fun node hnode => (h.within node (hnodes hnode)).imp_right fun hlt => Nat.lt_of_lt_of_le hlt hnext⟩

theorem Node.Drawn.later {first first' next : Nat} {nodes : List Node} (h : Drawn first' next nodes)
    (hfirst : first ≤ first') :
  Drawn first next nodes
  :=
  ⟨h.numbered, fun node hnode => (h.within node hnode).imp_left (Nat.le_trans hfirst)⟩

/-! ### Entries that are resolved -/

namespace Roots

variable {κ : Type} [BEq κ]

/-- Roots whose nodes show some entries and have numbers of a stretch. -/
structure Shows (shows : κ → Node → Prop) (entries : List κ) (first next : Nat) (r : Roots κ) : Prop where
  shown : ∀ node ∈ r.nodes.values, ∃ key ∈ entries, shows key node
  drawn : Node.Drawn first next r.nodes.values

namespace Shows

variable {r : Roots κ} {shows : κ → Node → Prop} {entries : List κ} {first next next' : Nat}

/-- The outcome of one more entry. -/
theorem add [EquivBEq κ] (h : r.Shows shows entries first next) {key : κ} {outcome : Except ResolutionError Node}
    (houtcome : ∀ node, outcome = .ok node → shows key node ∧ next ≤ node.number ∧ node.number < next')
    (hfirst : first ≤ next) (hnext : next ≤ next') :
  (r.add key outcome).Shows shows (entries ++ [key]) first next'
  := by
  have hshown (node : Node) (hnode : node ∈ r.nodes.values) : ∃ k ∈ entries ++ [key], shows k node := by
    obtain ⟨k, hk, hshows⟩ := h.shown node hnode
    exact ⟨k, List.mem_append_left _ hk, hshows⟩
  cases outcome with
  | error e => exact ⟨hshown, h.drawn.mono (List.Subset.refl _) hnext⟩
  | ok made =>
    obtain ⟨hshows, hle, hlt⟩ := houtcome made rfl
    have hmem : (r.nodes.insert key made).values ⊆ r.nodes.values ++ [made] := by
      intro node hnode
      obtain ⟨e, he, rfl⟩ := List.mem_map.mp hnode
      rcases Ledger.mem_insert he with he | ⟨-, hvalue⟩
      · exact List.mem_append_left _ (List.mem_map_of_mem he)
      · exact List.mem_append_right _ (List.mem_singleton.mpr hvalue)
    have hmade : Node.Drawn next next' [made] := by
      constructor
      · intro a ha b hb _
        rw [List.mem_singleton.mp ha, List.mem_singleton.mp hb]
      · intro node hnode
        rw [List.mem_singleton.mp hnode]
        exact ⟨hle, hlt⟩
    refine ⟨fun node hnode => ?_, (h.drawn.append hmade hfirst hnext).mono hmem (Nat.le_refl _)⟩
    rcases List.mem_append.mp (hmem hnode) with hnode | hnode
    · exact hshown node hnode
    · rw [List.mem_singleton.mp hnode]
      exact ⟨key, List.mem_append_right _ List.mem_cons_self, hshows⟩

/-- Entries that are resolved one after the other. -/
theorem rootsOf [EquivBEq κ] {w : Workspace σ} {resolve : κ → Search (Except ResolutionError Node)}
    (h : r.Shows shows entries first w.nextNode) (hfirst : first ≤ w.nextNode) (hw : w.Answers A.answers)
    (hrooted : w.searches.Rooted) (hlive : ∀ key, (resolve key).LeavesLive)
    (hresolve : ∀ (key : κ) (w' : Workspace σ) (node : Node), w'.Answers A.answers → w'.searches.Rooted →
      w'.files = w.files → (w'.run (resolve key)).1 = .ok node →
        shows key node ∧ w'.nextNode ≤ node.number ∧ node.number < (w'.run (resolve key)).2.nextNode)
    (keys : List κ) :
  (w.run (Search.rootsOf resolve r keys)).1.Shows shows (entries ++ keys) first
    (w.run (Search.rootsOf resolve r keys)).2.nextNode
  := by
  induction keys generalizing r entries w with
  | nil =>
    rw [List.append_nil]
    exact h
  | cons key keys ih =>
    have hspares := Workspace.Spares.run (w := w) (hlive key) hw.leavesSearches
    have hadded := h.add (fun node hnode => hresolve key w node hw hrooted rfl hnode) hfirst hspares.nextNode
    have hw' := hw.run (resolve key)
    have hrest (w' : Workspace σ) (hw' : w'.Answers A.answers) (hspares' : (w.run (resolve key)).2.Spares w')
        (hnext : w'.nextNode = (w.run (resolve key)).2.nextNode) :
        (w'.run (Search.rootsOf resolve (r.add key (w.run (resolve key)).1) keys)).1.Shows shows
          (entries ++ key :: keys) first
          (w'.run (Search.rootsOf resolve (r.add key (w.run (resolve key)).1) keys)).2.nextNode := by
      rw [List.append_cons]
      have hfiles := hspares'.files.trans hspares.files
      refine ih (hnext ▸ hadded) ?_ hw' (hspares'.rooted (hspares.rooted hrooted)) fun k w'' node hw'' hrooted' hfiles' =>
        hresolve k w'' node hw'' hrooted' (hfiles'.trans hfiles)
      exact Nat.le_trans hfirst (Nat.le_trans hspares.nextNode hspares'.nextNode)
    rw [Search.rootsOf, Workspace.run_bind]
    generalize w.run (resolve key) = resolved at *
    obtain ⟨outcome, w₁⟩ := resolved
    cases outcome with
    | ok node => exact hrest w₁ hw' (.refl w₁) rfl
    | error e =>
      have hlogged := Workspace.Spares.run (w := w₁) (s := Search.log (.warn e.message)) ⟨trivial, fun _ => trivial⟩
        hw'.leavesSearches
      exact hrest _ (hw'.run (Search.log (.warn e.message))) hlogged rfl

omit [BEq κ] in
theorem empty (shows : κ → Node → Prop) (number : Nat) :
  ({} : Roots κ).Shows shows [] number number
  :=
  ⟨nofun, .nil number number⟩

end Shows

end Roots

namespace Workspace

variable {w : Workspace σ}

theorem Answers.shows_moduleRoots (h : w.Answers A.answers) (hrooted : w.searches.Rooted) (names : List String) :
  (w.run (Search.moduleRoots A.searchPath names)).1.Shows A.ShowsModule names w.nextNode
    (w.run (Search.moduleRoots A.searchPath names)).2.nextNode
  :=
  (Roots.Shows.empty A.ShowsModule w.nextNode).rootsOf (Nat.le_refl _) h hrooted
    (Search.leavesLive_moduleNode A.searchPath) (fun _ _ _ hw' _ _ hnode => hw'.shows_moduleNode hnode) names

theorem Answers.shows_scriptRoots (h : w.Answers A.answers) (hrooted : w.searches.Rooted) (paths : List Path) :
  (w.run (Search.scriptRoots A.searchPath paths)).1.Shows (A.ShowsScript w.files) paths w.nextNode
    (w.run (Search.scriptRoots A.searchPath paths)).2.nextNode
  :=
  (Roots.Shows.empty (A.ShowsScript w.files) w.nextNode).rootsOf (Nat.le_refl _) h hrooted
    (Search.leavesLive_scriptNode A.searchPath)
    (fun _ _ _ hw' hrooted' hfiles hnode => hfiles ▸ hw'.shows_scriptNode hrooted' hnode) paths

end Workspace

/-! ### What is tracked -/

/-- Nodes that show modules and scripts of some settings. -/
inductive Settings.Shows (A : Setting) (seen : FileTree → Path → Prop) (s : Settings) (node : Node) : Prop where
  | module {name : String} (tracked : name ∈ s.modules) (shows : A.ShowsModule name node)
  | script {files : FileTree} {path : Path} (tracked : s.scripts.contains path = true) (seen : seen files path)
      (shows : A.ShowsScript files path node)

theorem Settings.Shows.showsRoot {s : Settings} {node : Node} (h : s.Shows A seen node) :
  A.ShowsRoot seen node
  := by
  cases h with
  | module _ shows => exact .module shows
  | script _ hseen shows => exact .script hseen shows

/-- An entry that is tracked and cannot have failed has a node. -/
theorem Roots.Tracks.exists_node {κ : Type} [BEq κ] {r : Roots κ} {entries : List κ} {O : Outcomes κ}
    (h : r.Tracks entries O) {key : κ} (hkey : entries.contains key = true) (hok : ∀ e, ¬ O.may key (.error e)) :
  ∃ node, r.nodes.find? key = some node ∧ O.may key (.ok node.element)
  := by
  rcases h.exists_node_or_error hkey with ⟨node, hnode⟩ | ⟨e, he⟩
  · exact ⟨node, hnode, h.may_ok hnode⟩
  · exact absurd (h.may_error he) (hok e)

namespace Setting

/-- The element of a module. -/
theorem ShowsModule.outcome {name : String} {node : Node} (h : A.ShowsModule name node) :
  moduleOutcome A.answers A.searchPath name = .ok node.element
  := by
  obtain ⟨number, answer⟩ := h
  rw [moduleOutcome, answer]
  rfl

/-- The elements of equal scripts are equal. -/
theorem ShowsScript.exists_outcome (hA : Discreet A.answers)
    (hplaces : ∀ files files' p q, seen files p → seen files' q → (p == q) = true →
      (files.place p == files'.place q) = true)
    {files files' : FileTree} {p q : Path} {node : Node} (h : A.ShowsScript files p node) (hp : seen files p)
    (hq : seen files' q) (hequal : Equal q p) :
  ∃ e, scriptOutcome A.answers A.searchPath files' q = .ok e ∧ Equal e node.element
  := by
  obtain ⟨number, first, answer⟩ := h
  rename_i d
  have hanswers := hA.script q p A.searchPath hequal
  rw [answer] at hanswers
  cases hanswer : A.answers (.script q A.searchPath) with
  | error e =>
    rw [hanswer] at hanswers
    cases hanswers
  | ok d' =>
    rw [hanswer] at hanswers
    cases hanswers with
    | ok hd =>
      obtain ⟨_, hname, _⟩ := Definition.beq_iff.mp hd
      refine ⟨Search.scriptElement files' q d', ?_, ?_⟩
      · rw [scriptOutcome, scriptAnswer, hanswer]
        rfl
      · exact Element.beq_iff.mpr ⟨hplaces files' files q p hq hp hequal,
          CallPosition.beq_iff.mpr ⟨hequal, rfl, rfl⟩, hname, rfl, hname, rfl, rfl, rfl⟩

end Setting

namespace Project

/-! ### Nodes that go -/

/-- An entry that is tracked no longer has its node among those that go. -/
theorem mem_stale_reconcile {κ : Type} [BEq κ] [EquivBEq κ] {previous new : List κ} {current resolved : Roots κ}
    {key : κ} (hprevious : key ∈ previous) (hnew : new.contains key = false) {node : Node}
    (hnode : current.nodes.find? key = some node) :
  node ∈ (reconcile previous new current resolved).1.stale
  := by
  have hdropped : key ∈ added new previous := List.mem_filter.mpr ⟨hprevious, by rw [hnew]; rfl⟩
  obtain ⟨k, hk, hequal⟩ := List.contains_iff_exists_mem_beq.mp (contains_distinct hdropped)
  rw [Roots.stale_reconcile, List.mem_filterMap]
  exact ⟨k, hk, Ledger.find?_congr current.nodes hequal ▸ hnode⟩

variable {δ : Type} {p : Project δ} {w : Workspace σ}

/-! ### Nodes that are found again -/

namespace IsTracked

theorem exists_module (h : p.IsTracked A.answers seen w) (hpath : A.searchPath = p.settings.sysPath) {name : String}
    {node : Node} (htracked : name ∈ p.settings.modules) (hshows : A.ShowsModule name node) :
  ∃ node', p.modules.nodes.find? name = some node' ∧ Equal node'.element node.element
  := by
  have houtcome := hshows.outcome
  rw [hpath] at houtcome
  obtain ⟨node', hnode', hmay⟩ := h.modules.exists_node (List.contains_iff_mem.mpr htracked) fun e he => by
    cases he.trans houtcome
  have helement : Except.ok node'.element = Except.ok node.element := Eq.trans hmay houtcome
  refine ⟨node', hnode', ?_⟩
  rw [Except.ok.inj helement]
  exact beq_self_eq_true _

variable (hA : Discreet A.answers)
  (hplaces : ∀ files files' p q, seen files p → seen files' q → (p == q) = true →
    (files.place p == files'.place q) = true)

include hA hplaces

theorem exists_script (h : p.IsTracked A.answers seen w) (hpath : A.searchPath = p.settings.sysPath) {files : FileTree}
    {path : Path} {node : Node} (htracked : p.settings.scripts.contains path = true) (hseen : seen files path)
    (hshows : A.ShowsScript files path node) :
  ∃ node', p.scripts.nodes.find? path = some node' ∧ Equal node'.element node.element
  := by
  have houtcome {files' : FileTree} {other : Path} (hother : seen files' other) (hequal : Equal other path) :=
    hshows.exists_outcome hA hplaces hseen hother hequal
  rw [hpath] at houtcome
  obtain ⟨node', hnode', files', other, hother, hequal, hmay⟩ := h.scripts.exists_node htracked fun e he => by
    obtain ⟨files', other, hother, hequal, he⟩ := he
    obtain ⟨e', he', -⟩ := houtcome hother hequal
    cases he.trans he'
  obtain ⟨e, he, helement⟩ := houtcome hother hequal
  cases hmay.trans he
  exact ⟨node', hnode', helement⟩

/-- What shows an entry that is tracked is found among the roots. -/
theorem exists_root (h : p.IsTracked A.answers seen w) (hpath : A.searchPath = p.settings.sysPath) {node : Node}
    (hshows : p.settings.Shows A seen node) :
  ∃ node' ∈ p.rootNodes, Equal node'.element node.element
  := by
  have hmem {κ : Type} [BEq κ] {r : Roots κ} {key : κ} {node : Node} (h : r.nodes.find? key = some node) :
      node ∈ r.nodes.values := by
    obtain ⟨e, he, -, rfl⟩ := Ledger.exists_mem_of_find? h
    exact List.mem_map_of_mem he
  cases hshows with
  | module tracked shows =>
    obtain ⟨node', hnode', hequal⟩ := h.exists_module hpath tracked shows
    exact ⟨node', List.mem_append_left _ (hmem hnode'), hequal⟩
  | script tracked hseen shows =>
    obtain ⟨node', hnode', hequal⟩ := h.exists_script hA hplaces hpath tracked hseen shows
    exact ⟨node', List.mem_append_right _ (hmem hnode'), hequal⟩

end IsTracked

/-! ### Replacements -/

/-- What a replacement of modules or scripts leaves of the nodes that are shown, and what it adds, shows what is
tracked then. -/
structure Changes (A : Setting) (seen : FileTree → Path → Prop) (p p' : Project δ) (w w' : Workspace σ)
    (change : SettingsChange) : Prop where
  spares : w.Spares w'
  fits : w.Fits A → w'.Fits A
  sysPath : p'.settings.sysPath = p.settings.sysPath
  kept : ∀ node, p.settings.Shows A seen node → Frontier.isAmong change.stale node = false →
    p'.settings.Shows A seen node
  additional : ∀ node ∈ change.additional, p'.settings.Shows A seen node
  drawn : Node.Drawn w.nextNode w'.nextNode change.additional
  unchanged : change.changed = false → change.stale = [] ∧ change.additional = []

/-- Where nothing is said to change nothing goes or comes. -/
theorem unchanged_reconcile {κ : Type} [BEq κ] (previous new : List κ) (current resolved : Roots κ)
    (h : (reconcile previous new current resolved).1.changed = false) :
  (reconcile previous new current resolved).1.stale = [] ∧
    (reconcile previous new current resolved).1.additional = []
  := by
  obtain ⟨hstale, hadditional⟩ := Bool.or_eq_false_iff.mp h
  exact ⟨List.isEmpty_iff.mp ((Bool.not_eq_false' _).mp hstale),
    List.isEmpty_iff.mp ((Bool.not_eq_false' _).mp hadditional)⟩

theorem not_isAmong {stale : List Node} {node node' : Node} (hkept : Frontier.isAmong stale node = false)
    (hstale : node' ∈ stale) :
  ¬ Equal node'.element node.element
  := by
  intro hequal
  have hamong : Frontier.isAmong stale node = true :=
    List.any_eq_true.mpr ⟨node', hstale, by rw [hequal, Bool.or_true]⟩
  rw [hkept] at hamong
  cases hamong

theorem changes_setModules (h : p.IsTracked A.answers seen w) (hpath : A.searchPath = p.settings.sysPath)
    (hrooted : w.searches.Rooted) (new : List String) :
  p.Changes A seen (p.setModules new w).2.1 w (p.setModules new w).2.2 (p.setModules new w).1
  := by
  have hlive := Search.leavesLive_rootsOf (Search.leavesLive_moduleNode p.settings.sysPath)
    (added p.settings.modules new) {}
  have hspares := Workspace.Spares.run (w := w) hlive h.provider.leavesSearches
  have hshows := h.provider.shows_moduleRoots hrooted (added p.settings.modules new)
  rw [hpath] at hshows
  constructor
  · exact hspares.trans (.aside _ _ _ _)
  · intro hfits
    have hrun := hfits.run (Search.moduleRoots p.settings.sysPath (added p.settings.modules new))
    exact ⟨hrun.steady, hrun.files, hrun.searchPath, hrun.mode⟩
  · rfl
  · intro node hnode hkept
    cases hnode with
    | script tracked hseen shows => exact .script tracked hseen shows
    | @module name tracked shows =>
      apply Settings.Shows.module _ shows
      obtain ⟨node', hnode', hequal⟩ := h.exists_module hpath tracked shows
      change name ∈ new
      by_contra hnew
      have hstale : node' ∈ (p.setModules new w).1.stale :=
        mem_stale_reconcile tracked (by simpa using hnew) hnode'
      exact not_isAmong hkept hstale hequal
  · intro node hnode
    obtain ⟨name, hname, hnode⟩ := hshows.shown node hnode
    exact .module (List.mem_filter.mp hname).1 hnode
  · exact hshows.drawn
  · exact unchanged_reconcile _ _ _ _

theorem changes_setScripts (hA : Discreet A.answers)
    (hplaces : ∀ files files' p q, seen files p → seen files' q → (p == q) = true →
      (files.place p == files'.place q) = true)
    (h : p.IsTracked A.answers seen w) (hpath : A.searchPath = p.settings.sysPath) (hrooted : w.searches.Rooted)
    {new : List Path} (hnew : ∀ path ∈ new, seen w.files path) :
  p.Changes A seen (p.setScripts new w).2.1 w (p.setScripts new w).2.2 (p.setScripts new w).1
  := by
  have hlive := Search.leavesLive_rootsOf (Search.leavesLive_scriptNode p.settings.sysPath)
    (added p.settings.scripts new) {}
  have hspares := Workspace.Spares.run (w := w) hlive h.provider.leavesSearches
  have hshows := h.provider.shows_scriptRoots hrooted (added p.settings.scripts new)
  rw [hpath] at hshows
  constructor
  · exact hspares.trans (.aside _ _ _ _)
  · intro hfits
    have hrun := hfits.run (Search.scriptRoots p.settings.sysPath (added p.settings.scripts new))
    exact ⟨hrun.steady, hrun.files, hrun.searchPath, hrun.mode⟩
  · rfl
  · intro node hnode hkept
    cases hnode with
    | module tracked shows => exact .module tracked shows
    | @script files path tracked hseen shows =>
      obtain ⟨node', hnode', hequal⟩ := h.exists_script hA hplaces hpath tracked hseen shows
      obtain ⟨key, hkey, hkeyed⟩ := List.contains_iff_exists_mem_beq.mp tracked
      refine .script ?_ hseen shows
      change new.contains path = true
      by_contra hgone
      have hgone : new.contains key = false := by
        rw [← List.contains_congr hkeyed]
        exact Bool.not_eq_true _ ▸ hgone
      rw [Ledger.find?_congr _ hkeyed] at hnode'
      have hstale : node' ∈ (p.setScripts new w).1.stale := mem_stale_reconcile hkey hgone hnode'
      exact not_isAmong hkept hstale hequal
  · intro node hnode
    obtain ⟨path, hmem, hnode⟩ := hshows.shown node hnode
    have hmem : path ∈ new := (List.mem_filter.mp hmem).1
    exact .script (List.contains_iff_exists_mem_beq.mpr ⟨path, hmem, BEq.rfl⟩) (hnew path hmem) hnode
  · exact hshows.drawn
  · exact unchanged_reconcile _ _ _ _

/-! ### Resolving everything again -/

/-- What everything is resolved into again. -/
structure Rebuilt (A : Setting) (seen : FileTree → Path → Prop) (p : Project δ) (w w' : Workspace σ) : Prop where
  spares : w.Spares w'
  fits : w'.Fits A
  shown : ∀ node ∈ p.rootNodes, p.settings.Shows A seen node
  drawn : Node.Drawn w.nextNode w'.nextNode p.rootNodes

theorem rebuilt_rebuild (hw : w.Answers A.answers) (hfiles : w.files = A.files)
    (hmode : w.getConfig.1.experimentalMode = A.experimental) (hpath : A.searchPath = p.settings.sysPath)
    (hrooted : w.searches.Rooted) (hseen : ∀ path ∈ p.settings.scripts, seen w.files path) :
  Rebuilt A seen (p.rebuild w).1 w (p.rebuild w).2
  := by
  have hw₀ : Workspace.Answers { w with searchPath := p.settings.sysPath } A.answers := hw
  have hfits₀ : Workspace.Fits { w with searchPath := p.settings.sysPath } A := by
    obtain ⟨states, hsteady, hstates⟩ := hw
    exact ⟨⟨states, hsteady w.files, hstates⟩, hfiles, hpath.symm, hmode⟩
  have hspares₀ := Workspace.Spares.aside w w.scope p.settings.sysPath w.log
  have hspares₁ := Workspace.Spares.run (w := { w with searchPath := p.settings.sysPath })
    (Search.leavesLive_rootsOf (Search.leavesLive_moduleNode p.settings.sysPath) p.settings.modules {}) hw.leavesSearches
  have hmodules := hw₀.shows_moduleRoots hrooted p.settings.modules
  have hw₁ := hw₀.run (Search.moduleRoots p.settings.sysPath p.settings.modules)
  have hfits₁ := hfits₀.run (Search.moduleRoots p.settings.sysPath p.settings.modules)
  have hspares₂ := Workspace.Spares.run
    (Search.leavesLive_rootsOf (Search.leavesLive_scriptNode p.settings.sysPath) p.settings.scripts {})
    hw₁.leavesSearches
  have hscripts := hw₁.shows_scriptRoots (hspares₁.rooted hrooted) p.settings.scripts
  have hfits₂ := hfits₁.run (Search.scriptRoots p.settings.sysPath p.settings.scripts)
  rw [hpath] at hmodules hscripts
  constructor
  · exact ((hspares₀.trans hspares₁).trans hspares₂).trans (.aside _ _ _ _)
  · exact ⟨hfits₂.steady, hfits₂.files, hfits₂.searchPath, hfits₂.mode⟩
  · intro node hnode
    rcases List.mem_append.mp hnode with hnode | hnode
    · obtain ⟨name, hname, hshows⟩ := hmodules.shown node hnode
      exact .module hname hshows
    · obtain ⟨path, hmem, hshows⟩ := hscripts.shown node hnode
      refine .script (List.contains_iff_exists_mem_beq.mpr ⟨path, hmem, BEq.rfl⟩) ?_ hshows
      have hfiles₁ : (Workspace.run (Search.moduleRoots p.settings.sysPath p.settings.modules) _).2.files = w.files :=
        hspares₁.files
      rw [hfiles₁]
      exact hseen path hmem
  · exact hmodules.drawn.append hscripts.drawn hspares₁.nextNode hspares₂.nextNode

end Project

end CallGraph
