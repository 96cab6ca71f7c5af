import CallGraph.Frontier.Replay
import CallGraph.Proofs.Bookmark
import CallGraph.Proofs.Frontier.Sequential
import CallGraph.Proofs.Search.Tracked

/-!
# Navigations at rest

Without multithreading a caller does all the work that goes with its commands.  So between two commands a navigation
is at rest: nothing is left to do, and its columns show what the commands come to.  Where the elements of a bookmark
can be followed exactly from the roots, they are, and the path shows them afterwards.
-/

namespace CallGraph

variable {σ : Type} {A A' : Setting}

namespace Navigation

/-- A navigation without multithreading that has nothing left to do and shows some columns. -/
structure Rests (A : Setting) (n : Navigation σ) (columns : List Column) : Prop where
  sequential : n.IsSequential
  session : ∃ s : Session σ, s.navigation = n ∧ s.inHand = [] ∧ s.begun = [] ∧ s.IsFaithful A columns

namespace Rests

variable {n : Navigation σ} {columns : List Column} {path : List Node}

/-- A session of a navigation without multithreading is drained when its callers have nothing to do. -/
theorem isDrained {s : Session σ} (h : s.navigation.IsSequential) (hinHand : s.inHand = []) (hbegun : s.begun = []) :
  s.IsDrained
  := by
  have hrunning : s.stream.running = none := h.running
  have hwaiting : s.stream.waiting = [] := h.waiting
  rw [Session.IsDrained, Session.tasks, hinHand, hbegun, hrunning, hwaiting]
  rfl

theorem fits (h : n.Rests A columns) :
  n.workspace.Fits A
  := by
  obtain ⟨s, rfl, -, -, hfaithful⟩ := h.session
  exact hfaithful.fits

theorem rooted (h : n.Rests A columns) :
  n.workspace.searches.Rooted
  := by
  obtain ⟨s, rfl, -, -, hfaithful⟩ := h.session
  exact hfaithful.rooted

theorem sound (h : n.Rests A columns) :
  n.workspace.searches.Sound
  := by
  obtain ⟨s, rfl, -, -, hfaithful⟩ := h.session
  exact hfaithful.orderly.orderly.sound

/-! ### What is shown -/

/-- The columns are shown one by one, column 0 as it is, and all of them have their rows. -/
theorem shown (h : n.Rests A columns) :
  Mirrored n.frontier.slots columns ∧ ∀ slot ∈ n.frontier.slots, slot.column.state = .populated
  := by
  obtain ⟨s, rfl, hinHand, hbegun, hfaithful⟩ := h.session
  have hdrained := isDrained h.sequential hinHand hbegun
  refine ⟨hfaithful.mirrored, fun slot hslot => ?_⟩
  obtain ⟨i, hi, rfl⟩ := List.getElem_of_mem hslot
  apply hfaithful.orderly.populated_of_isDrained hdrained
  exact Session.getElem?_columns.mpr ⟨_, List.getElem?_eq_getElem hi, rfl⟩

theorem forall₂ (h : n.Rests A columns) :
  List.Forall₂ (fun slot column => slot.column.IsMirrored column ∧ slot.column.state = .populated) n.frontier.slots
    columns
  := by
  obtain ⟨hmirrored, hpopulated⟩ := h.shown
  rw [List.forall₂_iff_get]
  refine ⟨hmirrored.length, fun i hi hi' => ?_⟩
  exact ⟨hmirrored.mirrored i _ _ (List.getElem?_eq_getElem hi) (List.getElem?_eq_getElem hi'),
    hpopulated _ (List.getElem_mem hi)⟩

/-- Nodes alike are selected in columns with rows alike. -/
theorem alike_selectedNode? {a b : Column} (h : a.IsMirrored b) (hpopulated : a.state = .populated) {node : Node}
    (hnode : b.selectedNode? = some node) :
  ∃ node', a.selectedNode? = some node' ∧ node'.Alike node
  := by
  obtain ⟨row, hrow, hnode⟩ := Option.bind_eq_some_iff.mp hnode
  have hnodes := h.nodes hpopulated
  obtain ⟨hlt, rfl⟩ := List.getElem?_eq_some_iff.mp hnode
  have hlt' : row < a.nodes.length := hnodes.length_eq ▸ hlt
  refine ⟨a.nodes[row], ?_, hnodes.get hlt' hlt⟩
  rw [Column.selectedNode?, h.selected, hrow, Option.bind_some, List.getElem?_eq_getElem hlt']

/-- The path shows the elements along the line. -/
theorem elementPath (h : n.Rests A columns) (hline : A.Line columns path) :
  n.frontier.elementPath = path.map Node.element
  := by
  have hshown := h.forall₂
  rw [Frontier.elementPath, Frontier.path]
  generalize n.frontier.slots = slots at hshown
  clear h
  induction hline generalizing slots with
  | last nodes =>
    cases hshown with
    | @cons slot _ rest _ hslot hrest =>
      have hnone : slot.column.selectedNode? = none := by
        rw [Column.selectedNode?, hslot.1.selected]
        rfl
      rw [Frontier.selections, hnone, List.map_nil]
  | cons state selected rows line ih =>
    cases hshown with
    | @cons slot _ rest _ hslot hrest =>
      obtain ⟨node', hnode', halike⟩ := alike_selectedNode? hslot.1 hslot.2 selected
      rw [Frontier.selections, hnode']
      dsimp only
      rw [List.map_cons, List.map_cons, ih _ hrest, halike.element]

/-- A column shows the elements of the one that it is to show. -/
theorem exists_column (h : n.Rests A columns) {i : Nat} {column : Column} (hcolumn : columns[i]? = some column) :
  ∃ current, n.frontier.column? i = some current ∧ current.elements = column.elements
  := by
  obtain ⟨hlt, rfl⟩ := List.getElem?_eq_some_iff.mp hcolumn
  have hshown := h.forall₂
  have hlt' : i < n.frontier.slots.length := hshown.length_eq ▸ hlt
  obtain ⟨hmirrored, hpopulated⟩ := hshown.get hlt' hlt
  refine ⟨n.frontier.slots[i].column, ?_, congrArg (·.1) (hmirrored.view_eq hpopulated)⟩
  rw [Frontier.column?, List.getElem?_eq_getElem hlt', Option.map_some]

/-- The roots are the rows of the first column. -/
theorem roots (h : n.Rests A columns) :
  ∃ root rest, columns = root :: rest ∧ n.frontier.roots = root.nodes
  := by
  obtain ⟨s, rfl, -, -, hfaithful⟩ := h.session
  obtain ⟨slot, rest, others, hslots, hcolumns, -⟩ := hfaithful.exists_root
  refine ⟨_, _, hcolumns, ?_⟩
  have hslots : s.navigation.frontier.slots = slot :: rest := hslots
  rw [Frontier.roots, hslots]
  rfl

/-! ### Commands -/

/-- A command and the work that goes with it. -/
theorem leads (h : n.Rests A columns) {command : Command} {n' : Navigation σ}
    (hleads : ∀ s : Session σ, s.navigation = n → (s.perform command).Leads n' s.inHand s.begun)
    (hsequential : n'.IsSequential) :
  n'.Rests A (A.perform columns command)
  := by
  obtain ⟨s, rfl, hinHand, hbegun, hfaithful⟩ := h.session
  have hadmits : s.Admits command := by
    cases command with
    | select index row =>
      intro column hcolumn
      exact hfaithful.orderly.populated_of_isDrained (isDrained h.sequential hinHand hbegun) hcolumn
    | _ => trivial
  obtain ⟨s', hworks, hnavigation, hinHand', hbegun'⟩ := hleads s rfl
  refine ⟨hsequential, s', hnavigation, hinHand'.trans hinHand, hbegun'.trans hbegun, ?_⟩
  exact (hfaithful.perform hadmits).works hworks

/-- A caller gives a command. -/
theorem obey (h : n.Rests A columns) (command : Command) :
  (n.obey command).Rests A (A.perform columns command)
  :=
  h.leads (fun s hs => hs ▸ s.leads_obey command) (h.sequential.obey command)

theorem selectStrict (h : n.Rests A columns) (index row : Nat) :
  (n.selectStrict index row).2.Rests A (A.perform columns (.select index row))
  :=
  h.leads (fun s hs => hs ▸ s.leads_selectWith true index row) (h.sequential.selectWith true index row)

/-- The workspace is changed by others, who spare the handles; the files may be others, too. -/
theorem beside (h : n.Rests A columns) {w : Workspace σ} (hprovider : w.provider = n.workspace.provider)
    (hconfig : w.getConfig.1.multithreading = false) (hsearches : n.workspace.searches.Spares w.searches)
    (hrooted : w.searches.Rooted) (hfits : w.Fits A') :
  Rests A' { n with workspace := w } columns
  := by
  obtain ⟨s, rfl, hinHand, hbegun, hfaithful⟩ := h.session
  refine ⟨⟨hconfig, h.sequential.waiting, h.sequential.running⟩,
    { s with navigation := { s.navigation with workspace := w } }, rfl, hinHand, hbegun, ?_, hfits, hrooted,
    hfaithful.mirrored, ?_⟩
  · exact hfaithful.orderly.step (.elsewhere s w hprovider hsearches)
  · intro x hx
    have htasks : s.tasks = [] := isDrained h.sequential hinHand hbegun
    have hx : x ∈ s.tasks := hx
    rw [htasks] at hx
    cases hx

/-- The workspace is changed by others, who spare the handles and the files. -/
theorem elsewhere (h : n.Rests A columns) {w : Workspace σ} (hspares : n.workspace.Spares w) (hfits : w.Fits A') :
  Rests A' { n with workspace := w } columns
  := by
  have hconfig := (congrArg ConfigValues.multithreading hspares.config).trans h.sequential.config
  exact h.beside hspares.provider hconfig hspares.searches (hspares.rooted h.rooted) hfits

/-- Lines are written to the log. -/
theorem note (h : n.Rests A columns) (line : LogLine) :
  Rests A { n with workspace := n.workspace.note line } columns
  :=
  h.elsewhere (.aside _ _ _ _) ⟨h.fits.steady, h.fits.files, h.fits.searchPath, h.fits.mode⟩

/-- A new navigation rests. -/
theorem empty {w : Workspace σ} (hsearches : w.searches = {}) (hfits : w.Fits A)
    (hconfig : w.getConfig.1.multithreading = false) (cacheSize : Nat) :
  Rests A ⟨w, .empty cacheSize⟩ [.populated []]
  := by
  have hofWorkspace : (Session.ofWorkspace w cacheSize).navigation = ⟨w, .empty cacheSize⟩ := by
    rw [Session.ofWorkspace, ← hsearches]
  exact ⟨⟨hconfig, rfl, rfl⟩, _, hofWorkspace, rfl, rfl, .ofWorkspace hfits cacheSize⟩

end Rests

/-! ### Bookmarks -/

variable {n : Navigation σ} {columns : List Column} {path : List Node}

/-- A worker that has nothing to do does nothing. -/
theorem IsSequential.waitColumn_eq (h : n.IsSequential) (column : Nat) :
  n.waitColumn column = n
  := by
  have hrepeat (k : Nat) : k.repeat stepExpansion n = n := by
    induction k with
    | zero => rfl
    | succ k ih => rw [Nat.repeat, ih, stepExpansion_of_nil h.running h.waiting]
  cases column with
  | zero => rfl
  | succ left =>
    unfold waitColumn
    dsimp only
    split
    · split
      · rfl
      · exact hrepeat _
    · rfl

/-- A row that is there can be followed. -/
theorem followRow_eq {column row : Nat} {current : Column} {node : Node}
    (hcurrent : n.frontier.column? column = some current) (hnode : current.nodes[row]? = some node) :
  n.followRow column row = (true, (n.selectStrict column row).2)
  := by
  obtain ⟨slot, hslot, rfl⟩ := Option.map_eq_some_iff.mp hcurrent
  have hok : ∃ m, n.selectStrict column row = (.ok node, m) := by
    rw [selectStrict, selectWith, choose]
    dsimp only
    rw [Frontier.choose, hslot]
    dsimp only
    rw [hnode]
    exact ⟨_, rfl⟩
  obtain ⟨m, hm⟩ := hok
  rw [followRow, hm]

/-- A navigation at rest whose columns are in line. -/
def InLine (A : Setting) (n : Navigation σ) : Prop :=
  ∃ columns path, n.Rests A columns ∧ A.Line columns path

namespace InLine

theorem fits (h : n.InLine A) :
  n.workspace.Fits A
  := by
  obtain ⟨columns, path, hrests, -⟩ := h
  exact hrests.fits

theorem rooted (h : n.InLine A) :
  n.workspace.searches.Rooted
  := by
  obtain ⟨columns, path, hrests, -⟩ := h
  exact hrests.rooted

theorem sound (h : n.InLine A) :
  n.workspace.searches.Sound
  := by
  obtain ⟨columns, path, hrests, -⟩ := h
  exact hrests.sound

theorem selectStrict (h : n.InLine A) (column row : Nat) :
  (n.selectStrict column row).2.InLine A
  := by
  obtain ⟨columns, path, hrests, hline⟩ := h
  obtain ⟨path', hline'⟩ := hline.perform_select column row
  exact ⟨_, path', hrests.selectStrict column row, hline'⟩

theorem select (h : n.InLine A) (column row : Nat) :
  (n.select column row).2.InLine A
  := by
  obtain ⟨columns, path, hrests, hline⟩ := h
  obtain ⟨path', hline'⟩ := hline.perform_select column row
  exact ⟨_, path', hrests.obey (.select column row), hline'⟩

theorem note (h : n.InLine A) (line : LogLine) :
  InLine A { n with workspace := n.workspace.note line }
  := by
  obtain ⟨columns, path, hrests, hline⟩ := h
  exact ⟨columns, path, hrests.note line, hline⟩

theorem followRow (h : n.InLine A) (column row : Nat) :
  (n.followRow column row).2.InLine A
  := by
  have hselect := h.selectStrict column row
  unfold Navigation.followRow
  generalize n.selectStrict column row = r at hselect
  obtain ⟨result, n'⟩ := r
  cases result with
  | ok node => exact hselect
  | error e => exact hselect.note _

/-! ### Roots -/

/-- The roots are replaced, after others have changed the workspace and what searches in it depend on. -/
theorem setRoots (h : n.InLine A) {w : Workspace σ} (hspares : n.workspace.Spares w) (hfits : w.Fits A')
    (nodes : List Node) :
  (Navigation.setRoots { n with workspace := w } nodes).InLine A'
  := by
  obtain ⟨columns, path, hrests, -⟩ := h
  exact ⟨_, [], (hrests.elsewhere hspares hfits).obey (.setRoots nodes), .last nodes⟩

/-- Roots of which no two have the same number are removed, after others have changed the workspace. -/
theorem removeRoots (h : n.InLine A) (hnumbered : Node.Numbered n.frontier.roots) {w : Workspace σ}
    (hspares : n.workspace.Spares w) (hfits : w.Fits A) (nodes : List Node) :
  (Navigation.removeRoots { n with workspace := w } nodes).InLine A
  := by
  obtain ⟨columns, path, hrests, hline⟩ := h
  have hroots : ∀ root ∈ columns.head?, Node.Numbered root.nodes := by
    obtain ⟨root, rest, rfl, hroots⟩ := hrests.roots
    rintro _ ⟨⟩
    exact hroots ▸ hnumbered
  obtain ⟨path', hline'⟩ := hline.perform_removeRoots hroots nodes
  exact ⟨_, path', (hrests.elsewhere hspares hfits).obey (.removeRoots nodes), hline'⟩

theorem addRoots (h : n.InLine A) (nodes : List Node) :
  (n.addRoots nodes).InLine A
  := by
  obtain ⟨columns, path, hrests, hline⟩ := h
  exact ⟨_, path, hrests.obey (.addRoots nodes), hline.perform_addRoots nodes⟩

theorem elsewhere (h : n.InLine A) {w : Workspace σ} (hspares : n.workspace.Spares w) (hfits : w.Fits A) :
  InLine A { n with workspace := w }
  := by
  obtain ⟨columns, path, hrests, hline⟩ := h
  exact ⟨columns, path, hrests.elsewhere hspares hfits, hline⟩

/-- There are columns. -/
theorem slots_ne_nil (h : n.InLine A) :
  n.frontier.slots ≠ []
  := by
  obtain ⟨columns, path, hrests, hline⟩ := h
  intro hslots
  have hlength := hrests.shown.1.length
  rw [hslots, hline.length] at hlength
  cases hlength

/-- What is left of a walk once a row was to be selected on it. -/
def followRest (column row : Nat) (degree : MatchDegree) (targets : List Element) :
    Bool × Navigation σ → ReplayOutcome × Navigation σ
  | (false, n) => ({ stoppedAt := some column }, n)
  | (true, n) =>
    let (outcome, n) := n.follow (column + 1) targets
    ({ outcome with steps := ⟨column, row, degree⟩ :: outcome.steps }, n)

/-- Whatever bookmark is followed however far, the columns are in line. -/
theorem follow (h : n.InLine A) (column : Nat) (targets : List Element) :
  (n.follow column targets).2.InLine A
  := by
  induction targets generalizing n column with
  | nil => exact h
  | cons target targets ih =>
    have hwait : n.waitColumn column = n := by
      obtain ⟨columns, path, hrests, -⟩ := h
      exact hrests.sequential.waitColumn_eq column
    rw [Navigation.follow, hwait]
    dsimp only
    split
    · exact h
    · rename_i current _
      split
      · rename_i row degree _
        have hrow (m : Navigation σ) (hm : m.InLine A) :
            (followRest column row degree targets (m.followRow column row)).2.InLine A := by
          have hfollowed := hm.followRow column row
          generalize m.followRow column row = r at hfollowed
          obtain ⟨followed, m'⟩ := r
          cases followed with
          | false => exact hfollowed
          | true => exact ih hfollowed (column + 1)
        apply hrow
        cases degree.note? with
        | none => exact h
        | some note => exact h.note _
      · split
        · exact h
        · exact h.followRow column 0

end InLine

/-- Where the elements of a bookmark can be followed exactly, they are, one in each column. -/
theorem Rests.follow (h : n.Rests A columns) (hline : A.Line columns path) {index : Nat} {column : Column}
    (hcolumn : columns[index]? = some column) {targets : List Element} (hfollows : A.Follows column.nodes targets)
    (hend : path.length = index ∨ targets ≠ []) {before : List Element}
    (hbefore : List.Forall₂ Equal ((path.take index).map Node.element) before) :
  (n.follow index targets).1.isExact = true ∧ (n.follow index targets).1.steps.length = targets.length ∧
    List.Forall₂ Equal (n.follow index targets).2.frontier.elementPath (before ++ targets)
  := by
  induction targets generalizing n columns path index column before with
  | nil =>
    refine ⟨rfl, rfl, ?_⟩
    rcases hend with rfl | hend
    · rw [List.take_length] at hbefore
      rw [Navigation.follow, h.elementPath hline, List.append_nil]
      exact hbefore
    · contradiction
  | cons target targets ih =>
    obtain ⟨⟨node, hnode, hequal⟩, hrest⟩ := hfollows
    obtain ⟨current, hcurrent, helements⟩ := h.exists_column hcolumn
    have hmember : ∃ e ∈ column.elements, Equal e target := ⟨_, List.mem_map_of_mem hnode, hequal⟩
    obtain ⟨row, e, hfound, he, hexact⟩ := exists_findMatch hmember
    obtain ⟨chosen, hchosen, rfl⟩ := List.getElem?_map .. ▸ he |> Option.map_eq_some_iff.mp
    obtain ⟨shown, hshown, -⟩ : ∃ shown, current.nodes[row]? = some shown ∧ shown.element = chosen.element := by
      rw [← helements, Column.elements, List.getElem?_map] at he
      exact Option.map_eq_some_iff.mp he
    have hfollow : n.follow index (target :: targets) =
        ({ ((n.selectStrict index row).2.follow (index + 1) targets).1 with
          steps := ⟨index, row, .exact⟩ :: ((n.selectStrict index row).2.follow (index + 1) targets).1.steps },
          ((n.selectStrict index row).2.follow (index + 1) targets).2) := by
      rw [Navigation.follow, h.sequential.waitColumn_eq]
      dsimp only
      rw [hcurrent]
      dsimp only
      rw [helements, hfound]
      dsimp only [MatchDegree.note?]
      rw [followRow_eq hcurrent hshown]
    have hindex : index ≤ path.length := by
      have hlt := (List.getElem?_eq_some_iff.mp hcolumn).1
      have hlength := hline.length
      omega
    have hlength : (path.take index ++ [chosen]).length = index + 1 := by
      rw [List.length_append, List.length_take_of_le hindex]
      rfl
    have hcolumns : index ≤ columns.length := Nat.le_of_lt (List.getElem?_eq_some_iff.mp hcolumn).1
    have hnext : (columns.take index ++ [{ column with selected := some row }, .populated (A.rows chosen)])[index + 1]? =
        some (.populated (A.rows chosen)) := getElem?_cut_add _ hcolumns 1
    have hselected : (n.selectStrict index row).2.Rests A _ :=
      A.perform_select hcolumn hchosen ▸ h.selectStrict index row
    have hshows : List.Forall₂ Equal (((path.take index ++ [chosen]).take (index + 1)).map Node.element)
        (before ++ [target]) := by
      rw [List.take_of_length_le (Nat.le_of_eq hlength), List.map_append]
      exact List.rel_append hbefore (.cons hexact .nil)
    obtain ⟨hexactly, hsteps, hpath⟩ := ih hselected (hline.select hcolumn hchosen) hnext
      (hrest chosen (List.mem_of_getElem? hchosen) hexact) (.inl hlength) hshows
    rw [hfollow]
    refine ⟨?_, congrArg (· + 1) hsteps, ?_⟩
    · exact hexactly
    · rw [List.append_assoc] at hpath
      exact hpath

end Navigation

end CallGraph
