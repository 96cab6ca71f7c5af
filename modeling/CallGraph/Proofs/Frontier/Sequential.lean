import CallGraph.Proofs.Frontier.Callers
import CallGraph.Proofs.Frontier.Confluence
import Mathlib.Data.List.Induction

/-!
# Without multithreading

Without multithreading a caller expands its selection before it gives the next command, so nothing is ever
left to do and the commands make up a run by themselves.  Every run of the same commands is faithful to the
same columns, so whatever it shows is shown here as well, and once nothing is left to do it shows all.
-/

namespace CallGraph

variable {σ : Type}

/-- The workspace with multithreading turned on or off for the session. -/
def Workspace.withMultithreading (w : Workspace σ) (on : Bool) : Workspace σ :=
  { w with config := w.config.override { w.config.overrides with multithreading := some on } }

/-- Turning multithreading on or off changes nothing else of the configuration in force. -/
theorem Workspace.getConfig_withMultithreading (w : Workspace σ) (on : Bool) :
  (w.withMultithreading on).getConfig.1 =
    { (w.withMultithreading false).getConfig.1 with multithreading := on }
  := by
  have hvalues : ∀ on, (w.withMultithreading on).getConfig.1 =
      ((w.withMultithreading on).config.merge w.files).1 := fun _ => rfl
  have hlayer : ∀ on, (w.withMultithreading on).config.fileLayer w.files = w.config.fileLayer w.files :=
    fun _ => rfl
  rw [hvalues, hvalues, UserConfig.merge, UserConfig.merge, hlayer, hlayer]
  cases w.config.fileLayer w.files with
  | error e => rfl
  | ok layer => rfl

/-- Choosing a row submits nothing. -/
theorem Frontier.expansions_of_choose {f f' : Frontier} {column row : Nat} {handle : Token} {c c' : Searches}
    {node : Node} (h : f.choose column row handle c = .ok (node, f', c')) :
  f'.expansions = f.expansions
  := by
  simp only [choose] at h
  split at h
  case h_1 => cases h
  case h_2 =>
    split at h
    case h_1 => cases h
    case h_2 =>
      cases h
      rfl

/-- Removing roots submits nothing. -/
theorem Frontier.expansions_removeRoots (f : Frontier) (nodes : List Node) (c : Searches) :
  (f.removeRoots nodes c).1.expansions = f.expansions
  := by
  simp only [removeRoots]
  split
  case h_1 => rfl
  case h_2 =>
    split
    case h_1 => rfl
    case h_2 => split <;> rfl

namespace Navigation

variable {n n' : Navigation σ}

/-- What a command comes to when its caller does the work that goes with it. -/
def obey (n : Navigation σ) : Command → Navigation σ
  | .setRoots nodes => n.setRoots nodes
  | .addRoots nodes => n.addRoots nodes
  | .removeRoots nodes => n.removeRoots nodes
  | .select column row => (n.select column row).2

/-- The navigation after some commands without multithreading. -/
def sequential (w : Workspace σ) (cacheSize : Nat) (commands : List Command) : Navigation σ :=
  commands.foldl obey (Session.ofWorkspace (w.withMultithreading false) cacheSize).navigation

/-! ### Nothing waits for a worker -/

/-- A navigation without multithreading, whose worker has nothing to do. -/
structure IsSequential (n : Navigation σ) : Prop where
  config : n.workspace.getConfig.1.multithreading = false
  waiting : n.frontier.expansions.waiting = []
  running : n.frontier.expansions.running = none

/-- Only the configuration in force and the stream of expansions matter. -/
theorem IsSequential.congr (h : n.IsSequential)
    (hconfig : n'.workspace.getConfig.1 = n.workspace.getConfig.1)
    (hexpansions : n'.frontier.expansions = n.frontier.expansions) :
  n'.IsSequential
  := by
  constructor
  · rw [hconfig]
    apply h.config
  · rw [hexpansions]
    apply h.waiting
  · rw [hexpansions]
    apply h.running

/-- Running an expansion leaves nothing to the worker. -/
theorem IsSequential.runExpansion (h : n.IsSequential) (handle : Token) (e : Expansion) :
  (n.runExpansion handle e).IsSequential
  := by
  rw [Navigation.runExpansion]
  split
  case isTrue => exact h.congr rfl rfl
  case isFalse =>
    split
    case h_1 search _ => exact h.congr (n.workspace.getConfig_run search) rfl
    case h_2 => exact h.congr rfl rfl

/-- Submitting an expansion leaves nothing to the worker. -/
theorem IsSequential.submit (h : n.IsSequential) (handle : Token) (e : Expansion) :
  (n.submit handle e).IsSequential
  := by
  have hconfigured : IsSequential { n with workspace := n.workspace.getConfig.2 } :=
    h.congr n.workspace.getConfig_getConfig rfl
  change IsSequential (if n.workspace.getConfig.1.multithreading then _ else _)
  rw [h.config]
  apply hconfigured.runExpansion handle e

/-- Choosing a row leaves nothing to the worker. -/
theorem IsSequential.choose (h : n.IsSequential) {column row : Nat} {node : Node} {handle : Token}
    {e : Expansion} (hchosen : n.choose column row = .ok (node, handle, e, n')) :
  n'.IsSequential
  := by
  simp only [Navigation.choose] at hchosen
  split at hchosen
  case h_1 => cases hchosen
  case h_2 hfrontier =>
    cases hchosen
    exact h.congr rfl (Frontier.expansions_of_choose hfrontier)

/-- Selecting a row leaves nothing to the worker. -/
theorem IsSequential.selectWith (h : n.IsSequential) (strict : Bool) (column row : Nat) :
  (n.selectWith strict column row).2.IsSequential
  := by
  rw [Navigation.selectWith]
  cases hchosen : n.choose column row with
  | error e => apply h
  | ok chosen =>
      obtain ⟨node, handle, e, n'⟩ := chosen
      have hn' : n'.IsSequential := h.choose hchosen
      have hfocus := Shows.focus n' column
      have hfocused := hn'.congr hfocus.config hfocus.expansions
      cases strict with
      | true => apply hfocused.runExpansion handle e
      | false => apply hfocused.submit handle e

/-- Removing roots leaves nothing to the worker. -/
theorem IsSequential.removeRoots (h : n.IsSequential) (nodes : List Node) :
  (n.removeRoots nodes).IsSequential
  := by
  have hexpansions : (n.removeRoots nodes).frontier.expansions = n.frontier.expansions :=
    n.frontier.expansions_removeRoots nodes n.workspace.searches
  have hconfig : (n.removeRoots nodes).workspace.getConfig.1 = n.workspace.getConfig.1 := rfl
  apply h.congr hconfig hexpansions

/-- Commands leave nothing to the worker. -/
theorem IsSequential.obey (h : n.IsSequential) (command : Command) :
  (n.obey command).IsSequential
  := by
  cases command with
  | setRoots nodes => exact h.congr rfl rfl
  | addRoots nodes => exact h.congr rfl rfl
  | removeRoots nodes => apply h.removeRoots nodes
  | select column row => apply h.selectWith false column row

end Navigation

namespace Session

open Relation (ReflTransGen)

variable {A : Setting} {s s' start : Session σ} {commands : List Navigation.Command}

/-- Work after a run. -/
theorem Run.works (h : Run start commands s) (hworks : ReflTransGen Work s s') :
  Run start commands s'
  := by
  induction hworks with
  | refl => apply h
  | tail _ hwork ih => apply ih.work hwork

/-- A command that its caller does the work for is a command followed by work. -/
theorem leads_obey (s : Session σ) (command : Navigation.Command) :
  (s.perform command).Leads (s.navigation.obey command) s.inHand s.begun
  := by
  cases command with
  | setRoots nodes => exact ⟨_, .refl, rfl, rfl, rfl⟩
  | addRoots nodes => exact ⟨_, .refl, rfl, rfl, rfl⟩
  | removeRoots nodes => exact ⟨_, .refl, rfl, rfl, rfl⟩
  | select column row => apply leads_selectWith s false column row

/-- The commands of a run without multithreading. -/
theorem Run.exists_sequential {w : Workspace σ} (hw : (w.withMultithreading false).Fits A) (cacheSize : Nat)
    (commands : List Navigation.Command) :
  ∃ s, Run (.ofWorkspace (w.withMultithreading false) cacheSize) commands s ∧
    s.navigation = .sequential w cacheSize commands ∧ s.navigation.IsSequential ∧ s.IsDrained
  := by
  induction commands using List.reverseRecOn with
  | nil =>
      refine ⟨_, .start, rfl, ⟨?_, rfl, rfl⟩, rfl⟩
      apply congrArg ConfigValues.multithreading (w.getConfig_withMultithreading false)
  | append_singleton commands command ih =>
      obtain ⟨s, hrun, hnavigation, hsequential, hdrained⟩ := ih
      have hadmits : s.Admits command := by
        cases command with
        | select column row =>
            intro _ hcolumn
            apply (hrun.isFaithful hw).orderly.populated_of_isDrained hdrained hcolumn
        | _ => trivial
      obtain ⟨s', hworks, hnavigation', hinHand, hbegun⟩ := leads_obey s command
      have hsequential' : s'.navigation.IsSequential := hnavigation' ▸ hsequential.obey command
      use s', (hrun.command command hadmits).works hworks
      refine ⟨?_, hsequential', ?_⟩
      · rw [hnavigation', hnavigation, Navigation.sequential, Navigation.sequential, List.foldl_append]
        rfl
      · simp only [IsDrained, tasks, List.append_eq_nil_iff] at hdrained ⊢
        rw [hinHand, hbegun]
        exact ⟨⟨hdrained.1.1, hsequential'.waiting⟩, Option.toList_eq_nil_iff.mpr hsequential'.running⟩

/-- Two sessions that are faithful to the same columns show the same in a column that has its rows. -/
theorem IsFaithful.exists_view {columns : List Column} (h : s.IsFaithful A columns)
    (h' : s'.IsFaithful A columns) (hdrained' : s'.IsDrained) {i : Nat} {column : Column}
    (hcolumn : s.columns[i]? = some column) (hpopulated : column.state = .populated) :
  ∃ column', s'.columns[i]? = some column' ∧ column.view = column'.view
  := by
  obtain ⟨slot, hslot, rfl⟩ := getElem?_columns.mp hcolumn
  obtain ⟨target, htarget, hmirrored⟩ := h.mirrored.exists_column hslot
  have hlt : i < s'.slots.length := by
    rw [h'.mirrored.length]
    apply (List.getElem?_eq_some_iff.mp htarget).1
  have hslot' := List.getElem?_eq_getElem hlt
  have hmirrored' := h'.mirrored.mirrored i _ target hslot' htarget
  have hcolumn' := getElem?_columns.mpr ⟨_, hslot', rfl⟩
  have hpopulated' := h'.orderly.populated_of_isDrained hdrained' hcolumn'
  use s'.slots[i].column, hcolumn'
  rw [hmirrored.view_eq hpopulated, hmirrored'.view_eq hpopulated']

/-- Two sessions that are faithful to the same columns show the same when nothing is left to do. -/
theorem IsFaithful.map_view {columns : List Column} (h : s.IsFaithful A columns)
    (h' : s'.IsFaithful A columns) (hdrained : s.IsDrained) (hdrained' : s'.IsDrained) :
  s.columns.map Column.view = s'.columns.map Column.view
  := by
  apply List.ext_getElem?
  intro i
  rw [List.getElem?_map, List.getElem?_map]
  cases hcolumn : s.columns[i]? with
  | some column =>
      have hpopulated := h.orderly.populated_of_isDrained hdrained hcolumn
      obtain ⟨column', hcolumn', hview⟩ := h.exists_view h' hdrained' hcolumn hpopulated
      rw [hcolumn', Option.map_some, Option.map_some, hview]
  | none =>
      have hlength : s'.columns.length = s.columns.length := by
        rw [length_columns, length_columns, h.mirrored.length, h'.mirrored.length]
      have hcolumn' : s'.columns[i]? = none := by
        rw [List.getElem?_eq_none_iff, hlength]
        apply List.getElem?_eq_none_iff.mp hcolumn
      rw [hcolumn']

/-- Let the answers of a provider to searches that are not cancelled be fixed, whatever files are searched.
Then, in whatever order the work that goes with commands is done, a column that has its rows shows what it
shows without multithreading, and so do all columns once nothing is left to do, which work can always come
to. -/
theorem Run.shows_sequential {w : Workspace σ} {answers : (q : Question) → Except ProviderError q.Answer}
    {states : σ → Prop} {on : Bool} {cacheSize : Nat}
    (hsteady : w.provider.IsSteady w.files answers states)
    (hstates : states w.analysis)
    (husages : ∀ anchor files files', answers (.usages anchor files) = answers (.usages anchor files'))
    (hrun : Run (.ofWorkspace (w.withMultithreading on) cacheSize) commands s) :
  (∀ (i : Nat) (column : Column), s.columns[i]? = some column → column.state = .populated →
    ∃ column', (Navigation.sequential w cacheSize commands).frontier.columns[i]? = some column' ∧
      column.view = column'.view) ∧
  (s.IsDrained → s.columns.map Column.view =
    (Navigation.sequential w cacheSize commands).frontier.columns.map Column.view) ∧
  ∃ s', ReflTransGen Work s s' ∧ s'.IsDrained
  := by
  have hfits : ∀ on, (w.withMultithreading on).Fits
      { answers
        experimental := (w.withMultithreading false).getConfig.1.experimentalMode
        files := w.files
        searchPath := w.searchPath
        answers_usages := husages } := by
    intro on
    refine ⟨⟨states, hsteady, hstates⟩, rfl, rfl, ?_⟩
    rw [w.getConfig_withMultithreading on]
  obtain ⟨s', hrun', hnavigation, -, hdrained'⟩ := Run.exists_sequential (hfits false) cacheSize commands
  have hfaithful := hrun.isFaithful (hfits on)
  have hfaithful' := hrun'.isFaithful (hfits false)
  rw [← hnavigation]
  refine ⟨?_, ?_, s.exists_works_isDrained⟩
  · exact fun i column hcolumn => hfaithful.exists_view hfaithful' hdrained' hcolumn
  · exact fun hdrained => hfaithful.map_view hfaithful' hdrained hdrained'

/-- A vertex without a definition, of which nothing but its signature can be found. -/
def lone : Vertex :=
  ⟨{ Element.organizer "lone" with path := some ⟨"m.py"⟩ }, none⟩

/-- A vertex is selected twice, and the second time while its expansion searches for children: all searches
are cancelled, and the column shows what it shows without multithreading. -/
theorem Run.shows_sequential_of_overtaken :
  ∃ s, Run (.ofWorkspace (blank.withMultithreading true) 1)
      [.setRoots [.analyzed 0 lone], .select 0 0, .select 0 0] s ∧
    s.searches.isCancelled (.under (.root 0) 1) ∧ s.IsDrained ∧
    s.columns.map Column.elements = [[lone.element], [lone.element.asSignature]] ∧
    s.columns.map Column.view = (Navigation.sequential blank 1
      [.setRoots [.analyzed 0 lone], .select 0 0, .select 0 0]).frontier.columns.map Column.view
  := by
  have hroots : Run (.ofWorkspace (blank.withMultithreading true) 1) [.setRoots [.analyzed 0 lone]] _ :=
    Run.start.command _ trivial
  have hselected := hroots.command (.select 0 0) (by rintro _ ⟨⟩; rfl)
  have hstarted := (hselected.work (.submit _ [] [] _ _ rfl)).work (.start _ rfl)
  have hsearched := (hstarted.work (.request _ _ _ _ _ rfl)).work (.request _ _ _ _ _ rfl)
  have hovertaken := hsearched.command (.select 0 0) (by rintro _ ⟨⟩; rfl)
  have hsubmitted := hovertaken.work (.submit _ [] [] _ _ rfl)
  have hdiscarded := ((((hsubmitted.work (.request _ _ _ _ _ rfl)).work (.request _ _ _ _ _ rfl)).work
    (.publish _ _ _ _ rfl)).work (.finish _ _ _ rfl)).work (.start _ rfl)
  have hchildren := ((hdiscarded.work (.request _ _ _ _ _ rfl)).work (.request _ _ _ _ _ rfl)).work
    (.request _ _ _ _ _ rfl)
  have hparents := ((hchildren.work (.request _ _ _ _ _ rfl)).work (.request _ _ _ _ _ rfl)).work
    (.request _ _ _ _ _ rfl)
  have hfound := ((hparents.work (.request _ _ _ _ _ rfl)).work (.request _ _ _ _ _ rfl)).work
    (.request _ _ _ _ _ rfl)
  have hrun := ((hfound.work (.request _ _ _ _ _ rfl)).work (.publish _ _ _ _ rfl)).work (.finish _ _ _ rfl)
  have hshows := Run.shows_sequential (Scripted.provider_isSteady {} {}) ⟨rfl, fun _ => rfl⟩
    (fun _ _ _ => rfl) hrun
  exact ⟨_, hrun, rfl, rfl, rfl, hshows.2.1 rfl⟩

end Session

end CallGraph
