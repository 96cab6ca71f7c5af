import CallGraph.Proofs.Scripted
import CallGraph.Proofs.Settings.Outcomes

/-!
# Reconciling agrees with resolving again

However the settings of a project were changed, its modules and scripts are those of its settings, and their
nodes and errors are those that resolving everything again would give.  Scripts are tracked as paths, so one
that is spelled another way keeps the node that it has; the two differ at most in the path of its element.
-/

namespace CallGraph

variable {σ δ : Type} {answers : (q : Question) → Except ProviderError q.Answer}
  {seen : FileTree → Path → Prop}

namespace Project

/-- The projects that can come about from new ones and from opened ones by attempts to replace settings, with
changes of the workspace by others in between.  The scripts that are tracked at any time are `seen` among the
files of that time. -/
inductive Reached [SettingsStore δ] (answers : (q : Question) → Except ProviderError q.Answer)
    (seen : FileTree → Path → Prop) : Project δ → Workspace σ → Prop where
  | new (store : δ) {w : Workspace σ} (provider : w.Answers answers) :
      Reached answers seen { store } w
  | opened {store : δ} {directory : Option Path} {user : UserScope} {runtime : List Path}
      {p : Project δ} {w w' : Workspace σ} (provider : w.Answers answers)
      (opened : openStored store directory user runtime w = (.ok p, w'))
      (before : ∀ path ∈ p.settings.scripts, seen w.files path)
      (after : ∀ path ∈ p.settings.scripts, seen w'.files path) :
      Reached answers seen p w'
  | attempt {p : Project δ} {w : Workspace σ} (reached : Reached answers seen p w) (category : Category)
      (value : Json) (among : ∀ path ∈ (p.attempt category value w).1.settings.scripts, seen w.files path) :
      Reached answers seen (p.attempt category value w).1 (p.attempt category value w).2
  | elsewhere {p : Project δ} {w w' : Workspace σ} (reached : Reached answers seen p w)
      (provider : w'.Answers answers) (among : ∀ path ∈ p.settings.scripts, seen w'.files path) :
      Reached answers seen p w'

variable [SettingsStore δ] {p : Project δ} {w : Workspace σ}

/-- Every project that can come about tracks what its settings say. -/
theorem Reached.isTracked (h : Reached answers seen p w) :
  p.IsTracked answers seen w
  := by
  induction h with
  | new store provider => exact ⟨provider, nofun, .empty _, .empty _⟩
  | opened provider opened before after => exact .openStored provider opened before after
  | attempt reached category value among ih => apply ih.attempt category value among
  | elsewhere reached provider among ih => exact ⟨provider, among, ih.modules, ih.scripts⟩

/-- Let the provider answer as a fixed function, and to equal paths alike.  Then the modules and scripts of a
project that can come about are exactly those of its settings, each resolved or failed but not both, and
resolving all of them again would give the same, but for the paths of the elements of scripts, which are the
same if the files of equal paths are at equal places. -/
theorem Reached.agrees (h : Reached answers seen p w)
    (hanswers : ∀ files files' a b searchPath, seen files a → seen files' b → (a == b) = true →
      scriptAnswer answers searchPath a = scriptAnswer answers searchPath b) :
  p.modules.Covers p.settings.modules ∧ p.scripts.Covers p.settings.scripts ∧
  p.modules.Agree Eq Eq (p.rebuild w).1.modules ∧
  p.scripts.Agree (fun a b => a.unplaced == b.unplaced) ResolutionError.Alike (p.rebuild w).1.scripts ∧
  ((∀ files files' a b, seen files a → seen files' b → (a == b) = true →
      (files.place a == files'.place b) = true) →
    p.scripts.Agree (fun a b => a == b) ResolutionError.Alike (p.rebuild w).1.scripts)
  := by
  have htracked := h.isTracked
  have hrebuilt := IsTracked.rebuild htracked.provider htracked.among
  have hunplaced : ∀ {path : Path} {o o' : Except ResolutionError Element},
      (scriptOutcomes answers p.settings.sysPath seen).may path o →
      (scriptOutcomes answers p.settings.sysPath seen).may path o' →
      Outcomes.Related (fun a b => a.unplaced == b.unplaced) ResolutionError.Alike o o' :=
    related_of_scriptOutcomes (fun files files' a b => hanswers files files' a b _)
      fun files files' _ _ d _ _ hequal => unplaced_scriptElement files files' hequal d
  refine ⟨?_, ?_, ?_, ?_, ?_⟩
  · apply htracked.modules.covers related_of_moduleOutcomes
  · apply htracked.scripts.covers hunplaced
  · apply htracked.modules.agree related_of_moduleOutcomes hrebuilt.modules
  · apply htracked.scripts.agree hunplaced hrebuilt.scripts
  · intro hplaces
    apply htracked.scripts.agree _ hrebuilt.scripts
    apply related_of_scriptOutcomes (fun files files' a b => hanswers files files' a b _)
    intro files files' a b d ha hb hequal
    apply scriptElement_beq hequal (hplaces files files' a b ha hb hequal) d

/-! ### A script behind a link -/

/-- A workspace with a module, and with a script that is reached through a link. -/
def linked : Workspace Scripted where
  provider := Scripted.provider
  analysis :=
    { modules := [("m", ⟨"m", Kind.moduleKind, "m", none, .known 1 0, .unknown⟩)]
      scripts := [(⟨"/tmp/w/link.py"⟩, ⟨"link", Kind.moduleKind, "link", none, .known 1 0, .unknown⟩)] }
  files :=
    { entries := [(["tmp"], .directory), (["tmp", "w"], .directory),
        (["tmp", "w", "real.py"], .file .empty 0), (["tmp", "w", "link.py"], .link "/tmp/w/real.py")] }
  config := {}

/-- A project in which modules are tracked, one of which is unknown, and then the script, which is at last
spelled with a slash behind it. -/
def respelled : Project MemoryStore × Workspace Scripted :=
  let (p, w) := attempt { store := ({} : MemoryStore) } .modules (.array [.text "m", .text "n", .text "m"]) linked
  let (p, w) := p.attempt .scripts (.array [.text "/tmp/w/link.py"]) w
  p.attempt .scripts (.array [.text "/tmp/w/link.py/"]) w

/-- The project can come about. -/
theorem reached_respelled :
  Reached linked.analysis.tabled (fun _ _ => True) respelled.1 respelled.2
  := by
  have hlinked : linked.Answers linked.analysis.tabled :=
    ⟨_, Scripted.provider_isSteady linked.analysis, rfl, fun _ => rfl⟩
  have hnew : Reached linked.analysis.tabled (fun _ _ => True) { store := ({} : MemoryStore) } linked :=
    .new ({} : MemoryStore) hlinked
  have hmodules := hnew.attempt .modules (.array [.text "m", .text "n", .text "m"]) fun _ _ => trivial
  have hscripts := hmodules.attempt .scripts (.array [.text "/tmp/w/link.py"]) fun _ _ => trivial
  apply hscripts.attempt .scripts (.array [.text "/tmp/w/link.py/"]) fun _ _ => trivial

/-- Tables do not tell equal paths apart. -/
theorem scriptAnswer_tabled (s : Scripted) (searchPath : List Path) {a b : Path} (h : (a == b) = true) :
  scriptAnswer s.tabled searchPath a = scriptAnswer s.tabled searchPath b
  := by
  rw [scriptAnswer, scriptAnswer, Scripted.tabled, Scripted.tabled, Scripted.last?_congr s.scripts h]
  cases Scripted.last? s.scripts b with
  | some d => rfl
  | none => rfl

/-- Of the modules one is resolved and one failed, and the script is shown as it would be, but for the path
of its element. -/
theorem Reached.agrees_of_respelled :
  respelled.1.modules.nodes.keys = ["m"] ∧ respelled.1.modules.failures.keys = ["n"] ∧
  respelled.1.scripts.nodes.keys.map Path.spelling = ["/tmp/w/link.py"] ∧
  respelled.1.modules.Covers respelled.1.settings.modules ∧
  respelled.1.modules.Agree Eq Eq (respelled.1.rebuild respelled.2).1.modules ∧
  respelled.1.scripts.Agree (fun a b => a.unplaced == b.unplaced) ResolutionError.Alike
    (respelled.1.rebuild respelled.2).1.scripts
  := by
  obtain ⟨hmodules, -, hagree, hscripts, -⟩ := Reached.agrees reached_respelled
    fun _ _ _ _ searchPath _ _ hequal => scriptAnswer_tabled linked.analysis searchPath hequal
  refine ⟨?_, ?_, ?_, hmodules, hagree, hscripts⟩
  · decide
  · decide
  · decide

/-- Resolving everything again would not give the same elements: the one of the script has the path that the
link leads to, but would have that of the link itself, as a slash behind it demands a directory. -/
theorem not_agree_respelled :
  Reached linked.analysis.tabled (fun _ _ => True) respelled.1 respelled.2 ∧
  (∀ (a b : Path) (searchPath : List Path), (a == b) = true →
    scriptAnswer linked.analysis.tabled searchPath a = scriptAnswer linked.analysis.tabled searchPath b) ∧
  ¬ respelled.1.scripts.Agree (fun a b => a == b) ResolutionError.Alike
    (respelled.1.rebuild respelled.2).1.scripts
  := by
  refine ⟨reached_respelled, fun _ _ searchPath => scriptAnswer_tabled linked.analysis searchPath, ?_⟩
  intro hagree
  have hpaths := hagree.components_find? ⟨"/tmp/w/link.py"⟩
  exact absurd hpaths (by decide)

end Project

end CallGraph
