import CallGraph.Proofs.Frontier.Progress
import CallGraph.Proofs.Scripted
import Mathlib.Data.List.Nodup

/-!
# Columns under any interleaving

Callers select rows and replace, add and remove roots, expansions are chosen, submitted, begun, searched,
published and ended, in any order.  In every session that can come about the columns are in order: each but
the last has a selection, only the last can be waiting for its rows, and each column to the right of a
selection shows exactly what the expansion of that selection computed, from the moment on when the expansion
is finished at the latest.
-/

namespace CallGraph

variable {σ : Type}

namespace Session

variable {s s' : Session σ}

/-- The invariant of a session. -/
structure IsOrderly (s : Session σ) : Prop where
  provider : s.navigation.workspace.provider.SparesHandles
  orderly : Orderly s.slots s.searches s.standing s.found s.tasks s.navigation.frontier.shown

/-- Showing keeps a session in order. -/
theorem IsOrderly.shows (h : s.IsOrderly) {n : Navigation σ} (hn : Shows s.navigation n) :
  IsOrderly { s with navigation := n }
  := by
  have htasks : tasks { s with navigation := n } = s.tasks := by
    simp only [tasks, stream, hn.expansions]
  constructor
  · rw [hn.provider]
    apply h.provider
  · rw [htasks, slots, hn.slots]
    apply h.orderly.confine (hn.touches h.orderly.asideIssued).confined

/-! ### Commands -/

/-- Column 0 changes and what stands there keeps standing. -/
theorem IsOrderly.changeRoots (h : s.IsOrderly) {slot slot' : Slot} {rest : List Slot}
    (hslots : s.slots = slot :: rest) (populated : slot'.column.state = .populated)
    (holds : ∀ p, slot.Holds p → slot'.Holds p) (isOpen : slot.IsOpen → slot'.IsOpen) :
  Orderly (slot' :: rest) s.searches s.standing s.found s.tasks s.navigation.frontier.shown
  := by
  have horderly := h.orderly
  rw [hslots] at horderly
  apply horderly.changeRoots populated holds isOpen

/-- There is a column 0, and it has its rows. -/
theorem IsOrderly.exists_root (h : s.IsOrderly) :
  ∃ slot rest, s.slots = slot :: rest ∧ slot.column.state = .populated
  := by
  obtain ⟨slot, hslot, hpopulated⟩ := h.orderly.lined.roots
  cases hslots : s.slots with
  | nil => rw [hslots] at hslot; cases hslot
  | cons root rest =>
      rw [hslots] at hslot
      cases hslot
      exact ⟨_, rest, rfl, hpopulated⟩

/-- Replacing the roots keeps a session in order. -/
theorem IsOrderly.setRoots (h : s.IsOrderly) (nodes : List Node) :
  (s.perform (.setRoots nodes)).IsOrderly
  where
  provider := h.provider
  orderly := h.orderly.restart (cancelFrom_cancels 0 _ _) rfl ⟨rfl, rfl, nofun⟩

/-- Adding roots keeps a session in order. -/
theorem IsOrderly.addRoots (h : s.IsOrderly) (nodes : List Node) :
  (s.perform (.addRoots nodes)).IsOrderly
  := by
  obtain ⟨slot, rest, hslots, hpopulated⟩ := h.exists_root
  constructor
  · apply h.provider
  · have hslots' : (s.perform (.addRoots nodes)).slots =
        { slot with column := { slot.column with nodes := slot.column.nodes ++ nodes } } :: rest := by
      change s.slots.modifyHead _ = _
      rw [hslots]
      rfl
    rw [hslots']
    apply h.changeRoots hslots
    · apply hpopulated
    · exact fun p hholds => hholds.append nodes
    · exact fun hopen => Slot.isOpen_of_populated hopen.pending hopen.selected hpopulated

/-- The selected root is taken out of column 0: only that column is left, and nothing is selected. -/
theorem perform_removeRoots_of_losesRoot {root : Slot} {rest : List Slot} (hslots : s.slots = root :: rest)
    {nodes : List Node} (hloses : s.losesRoot nodes = true) :
  s.perform (.removeRoots nodes) =
    { s with
      navigation :=
        ⟨{ s.navigation.workspace with searches := (cancelFrom 0 s.slots s.searches).2 },
          { s.navigation.frontier with
            slots :=
              [⟨{ root.column with
                  nodes := root.column.nodes.filter (!Frontier.isAmong nodes ·), selected := none }, none⟩] }⟩
      standing := [] }
  := by
  have hslots : s.navigation.frontier.slots = root :: rest := hslots
  simp only [losesRoot, Frontier.column?, hslots, List.getElem?_cons_zero, Option.map_some, Option.bind_some] at hloses
  obtain ⟨selected, hselected, hamong⟩ := (Option.any_eq_true _ _).mp hloses
  simp only [perform, losesRoot, Frontier.column?, Navigation.removeRoots, Frontier.removeRoots, hslots,
    List.getElem?_cons_zero, Option.map_some, Option.bind_some, hselected, Option.any_some, hamong, if_true]
  rw [slots, hslots]
  rfl

/-- The selected root, if there is one, is not taken out of column 0: its row is looked up again. -/
theorem perform_removeRoots_of_not_losesRoot {root : Slot} {rest : List Slot} (hslots : s.slots = root :: rest)
    {nodes : List Node} (hloses : s.losesRoot nodes = false) :
  ∃ row, s.perform (.removeRoots nodes) =
      { s with
        navigation := { s.navigation with
          frontier := { s.navigation.frontier with
            slots :=
              { root with
                column := { root.column with
                  nodes := root.column.nodes.filter (!Frontier.isAmong nodes ·), selected := row } } :: rest } } } ∧
    (root.column.selectedNode? = none → row = root.column.selected) ∧
    ∀ selected, root.column.selectedNode? = some selected → Frontier.isAmong nodes selected = false ∧
      row = (root.column.nodes.filter (!Frontier.isAmong nodes ·)).findIdx? (·.same selected)
  := by
  have hslots : s.navigation.frontier.slots = root :: rest := hslots
  simp only [losesRoot, Frontier.column?, hslots, List.getElem?_cons_zero, Option.map_some, Option.bind_some] at hloses
  cases hselected : root.column.selectedNode? with
  | none =>
    refine ⟨root.column.selected, ?_, fun _ => rfl, nofun⟩
    simp only [perform, losesRoot, Frontier.column?, Navigation.removeRoots, Frontier.removeRoots, hslots,
      List.getElem?_cons_zero, Option.map_some, Option.bind_some, hselected, Option.any_none, Bool.false_eq_true,
      if_false]
    rfl
  | some selected =>
    rw [hselected, Option.any_some] at hloses
    refine ⟨(root.column.nodes.filter (!Frontier.isAmong nodes ·)).findIdx? (·.same selected), ?_, nofun, ?_⟩
    · simp only [perform, losesRoot, Frontier.column?, Navigation.removeRoots, Frontier.removeRoots, hslots,
        List.getElem?_cons_zero, Option.map_some, Option.bind_some, hselected, Option.any_some, hloses,
        Bool.false_eq_true, if_false]
      rfl
    · rintro _ ⟨rfl⟩
      exact ⟨hloses, rfl⟩

/-- Removing roots keeps a session in order. -/
theorem IsOrderly.removeRoots (h : s.IsOrderly) (nodes : List Node) :
  (s.perform (.removeRoots nodes)).IsOrderly
  := by
  obtain ⟨slot, rest, hslots, hpopulated⟩ := h.exists_root
  cases hloses : s.losesRoot nodes with
  | true =>
    rw [perform_removeRoots_of_losesRoot hslots hloses]
    refine ⟨h.provider, h.orderly.restart (cancelFrom_cancels 0 _ _) hpopulated ?_⟩
    exact Slot.isOpen_of_populated rfl rfl hpopulated
  | false =>
    obtain ⟨row, hperform, hnone, hsome⟩ := perform_removeRoots_of_not_losesRoot hslots hloses
    rw [hperform]
    refine ⟨h.provider, h.changeRoots hslots hpopulated ?_ ?_⟩
    · intro p hholds
      obtain ⟨selected, hselected, -⟩ := hholds.selected
      obtain ⟨hkept, rfl⟩ := hsome selected hselected
      apply hholds.keep hselected
      exact List.mem_filter.mpr ⟨Column.mem_of_selectedNode? hselected, by rw [hkept]; rfl⟩
    · intro hopen
      have hselected : slot.column.selectedNode? = none := by
        rw [Column.selectedNode?, hopen.selected]
        rfl
      exact Slot.isOpen_of_populated hopen.pending ((hnone hselected).trans hopen.selected) hpopulated

/-- Selecting a row keeps a session in order. -/
theorem IsOrderly.select (h : s.IsOrderly) (column row : Nat) :
  (s.perform (.select column row)).IsOrderly
  := by
  cases hslot : s.navigation.frontier.slots[column]? with
  | none =>
      simp only [perform, Navigation.choose, Frontier.choose, hslot]
      apply h
  | some slot =>
      cases hnode : slot.column.nodes[row]? with
      | none =>
          simp only [perform, Navigation.choose, Frontier.choose, hslot, hnode]
          apply h
      | some node =>
          simp only [perform, Navigation.choose, Frontier.choose, hslot, hnode, cancelFrom_take]
          exact ⟨h.provider, h.orderly.select hslot hnode (cancelFrom_cancels column _ _) _⟩

/-- Commands keep a session in order. -/
theorem IsOrderly.perform (h : s.IsOrderly) (command : Navigation.Command) :
  (s.perform command).IsOrderly
  := by
  cases command with
  | setRoots nodes => apply h.setRoots nodes
  | addRoots nodes => apply h.addRoots nodes
  | removeRoots nodes => apply h.removeRoots nodes
  | select column row => apply h.select column row

/-! ### Work -/

/-- The rest of a search takes the place of the search that made a request. -/
theorem IsOrderly.reply (h : s.IsOrderly) {handle : Token} {column : Nat} {r : Request}
    {next : r.Reply → Search (List Node)} {others : List (Token × Expansion)}
    (htasks : s.tasks.Perm ((handle, ⟨column, .searching (.wait r next)⟩) :: others)) :
  Orderly s.slots (s.reply r).2.searches s.standing s.found
    ((handle, ⟨column, .searching (next (s.reply r).1)⟩) :: others) s.navigation.frontier.shown
  := by
  have hspares := s.navigation.workspace.perform_spares h.provider r
  exact ((h.orderly.perm htasks).confine (.ofSpares hspares)).resume (isSearching column _) rfl
    (isSearching column _)

/-- The list of a search that is done is published or thrown away. -/
theorem IsOrderly.publish (h : s.IsOrderly) {handle : Token} {column : Nat} {nodes : List Node}
    {others : List (Token × Expansion)}
    (htasks : s.tasks.Perm ((handle, ⟨column, .searching (.done nodes)⟩) :: others)) :
  Orderly (s.navigation.frontier.publish s.searches handle column nodes).slots s.searches s.standing
    ((handle, nodes) :: s.found) ((handle, ⟨column, .settled⟩) :: others) s.navigation.frontier.shown
  := by
  have horderly := h.orderly.perm htasks
  rw [Frontier.publish]
  cases hcancelled : s.searches.isCancelled handle with
  | true => apply horderly.discard (isSearching column _) hcancelled nodes
  | false => apply horderly.publish (isSearching column _) hcancelled nodes

/-- Work keeps a session in order. -/
theorem IsOrderly.work (h : s.IsOrderly) (hwork : Work s s') :
  s'.IsOrderly
  := by
  obtain ⟨hstanding, hprovider⟩ := hwork.keeps
  constructor
  · rw [hprovider]
    exact h.provider
  · rw [hstanding]
    cases hwork.effect h.orderly.asideIssued with
    | aside tasks searches slots found =>
      rw [slots, found]
      exact (h.orderly.confine searches).perm tasks
    | reply handle column r next others tasks tasks' searches shown slots found =>
      rw [slots, found, searches, shown]
      exact (h.reply tasks).perm tasks'.symm
    | publish handle column nodes others tasks tasks' searches shown slots found =>
      rw [slots, found, searches, shown]
      exact (h.publish tasks).perm tasks'.symm
    | finish handle e others tasks tasks' idle searches shown slots found =>
      rw [slots, found, searches, shown]
      exact ((h.orderly.perm tasks).finish idle).perm tasks'.symm

/-- However much work is done, a session stays in order. -/
theorem IsOrderly.works (h : s.IsOrderly) (hworks : Relation.ReflTransGen Work s s') :
  s'.IsOrderly
  := by
  induction hworks with
  | refl => apply h
  | tail _ hwork ih => apply ih.work hwork

/-! ### Sessions that can come about -/

/-- The session of a new navigation is in order. -/
theorem IsOrderly.ofWorkspace {w : Workspace σ} (hp : w.provider.SparesHandles) (cacheSize : Nat) :
  IsOrderly (ofWorkspace w cacheSize)
  := by
  constructor
  · apply hp
  · constructor
    · exact ⟨nofun, nofun, nofun⟩
    · exact .single rfl ⟨rfl, rfl, nofun⟩
    · exact nofun
    · exact nofun
    · exact nofun
    · exact nofun
    · exact .nil
    · exact .nil
    · exact nofun
    · exact nofun
    · exact nofun
    · exact nofun

/-- A step keeps a session in order. -/
theorem IsOrderly.step (h : s.IsOrderly) (hstep : Step s s') :
  s'.IsOrderly
  := by
  cases hstep with
  | command command => apply h.perform command
  | work work => apply h.work work
  | elsewhere workspace provider spares =>
      constructor
      · rw [provider]
        apply h.provider
      · apply h.orderly.confine (.ofSpares spares)

/-- Every session that can come about is in order. -/
theorem Reachable.isOrderly {w : Workspace σ} {cacheSize : Nat} (hp : w.provider.SparesHandles)
    (h : Reachable w cacheSize s) :
  s.IsOrderly
  := by
  induction h with
  | refl => exact .ofWorkspace hp cacheSize
  | tail _ hstep ih => apply ih.step hstep

/-- What a session shows: columns in a row, each but the last with a selection, and right of each selection
that stands the list its expansion computed, or a column that waits for it. -/
structure ShowsExpansions (s : Session σ) : Prop where
  /-- There is a column. -/
  nonempty : 0 < s.columns.length
  /-- Every column but the last has a selected row that it has. -/
  selected : ∀ (i : Nat) (column : Column), s.columns[i]? = some column → i + 1 < s.columns.length →
    ∃ row, column.selected = some row ∧ row < column.nodes.length
  /-- The last column has no selected row. -/
  unselected : ∀ column, s.columns.getLast? = some column → column.selected = none
  /-- The path has a node less than there are columns. -/
  path : s.navigation.frontier.path.length + 1 = s.columns.length
  /-- Only the last column can wait for its rows, and then it has none. -/
  populating : ∀ (i : Nat) (column : Column), s.columns[i]? = some column → column.state = .populating →
    i + 1 = s.columns.length ∧ column.nodes = []
  /-- A selection stands in every column but the last, and its node is the selected one. -/
  standing : s.standing.length + 1 = s.columns.length ∧
    ∀ (i : Nat) (p : Pending), s.standing[i]? = some p →
      ∃ column node, s.columns[i]? = some column ∧ column.selectedNode? = some node ∧ node.same p.node
  /-- A column right of a selection that has its rows has those that the expansion of this selection
  computed, which computed no others. -/
  rows : ∀ (i : Nat) (p : Pending) (column : Column), s.standing[i]? = some p →
    s.columns[i + 1]? = some column → column.state = .populated →
      ∀ nodes, (p.handle, nodes) ∈ s.found ↔ nodes = column.nodes
  /-- Once that expansion is finished the column has its rows. -/
  finished : ∀ (i : Nat) (p : Pending), s.standing[i]? = some p → s.searches.signals.isFinished p.handle →
    ∃ column, s.columns[i + 1]? = some column ∧ column.state = .populated

/-- When nothing is left to do, every column has its rows. -/
theorem IsOrderly.populated_of_isDrained (h : s.IsOrderly) (hdrained : s.IsDrained) {i : Nat}
    {column : Column} (hcolumn : s.columns[i]? = some column) :
  column.state = .populated
  := by
  obtain ⟨slot, hslot, rfl⟩ := getElem?_columns.mp hcolumn
  have hlt : i < s.standing.length + 1 := by
    rw [← h.orderly.lined.length]
    apply (List.getElem?_eq_some_iff.mp hslot).1
  cases i with
  | zero =>
      obtain ⟨root, hroot, hpopulated⟩ := h.orderly.lined.roots
      rw [hslot] at hroot
      cases hroot
      apply hpopulated
  | succ i =>
      cases h.orderly.fills (List.getElem?_eq_getElem (Nat.lt_of_succ_lt_succ hlt)) hslot with
      | waiting e populating task =>
          rw [hdrained] at task
          cases task
      | filled populated found => apply populated

/-- A session in order shows what was expanded. -/
theorem showsExpansions_of_isOrderly (h : s.IsOrderly) :
  s.ShowsExpansions
  := by
  have hlined := h.orderly.lined
  have hlength : s.columns.length = s.standing.length + 1 := s.length_columns.trans hlined.length
  have hcolumn : ∀ {i : Nat} {slot : Slot}, s.slots[i]? = some slot →
      s.columns[i]? = some slot.column := fun hslot => getElem?_columns.mpr ⟨_, hslot, rfl⟩
  constructor
  case nonempty =>
    rw [hlength]
    apply Nat.succ_pos _
  case selected =>
    intro i column hi hlt
    rw [hlength] at hlt
    obtain ⟨slot, hslot, rfl⟩ := getElem?_columns.mp hi
    have hholds := hlined.holds (List.getElem?_eq_getElem (Nat.lt_of_succ_lt_succ hlt)) hslot
    obtain ⟨node, hnode, -⟩ := hholds.selected
    obtain ⟨row, hrow, hget⟩ := Option.bind_eq_some_iff.mp hnode
    exact ⟨row, hrow, (List.getElem?_eq_some_iff.mp hget).1⟩
  case unselected =>
    intro column hlast
    obtain ⟨slot, hslot, hopen⟩ := hlined.last
    rw [List.getLast?_eq_getElem?, hlength, Nat.add_sub_cancel, hcolumn hslot] at hlast
    cases hlast
    apply hopen.selected
  case path =>
    rw [hlength, Frontier.path]
    apply congrArg (· + 1) hlined.length_selections
  case populating =>
    intro i column hi hpopulating
    obtain ⟨slot, hslot, rfl⟩ := getElem?_columns.mp hi
    rcases hlined.holds_or_isOpen hslot with ⟨p, -, hholds⟩ | ⟨rfl, hopen⟩
    · rw [hholds.populated] at hpopulating
      cases hpopulating
    · exact ⟨hlength.symm, hopen.nodes hpopulating⟩
  case standing =>
    use hlength.symm
    intro i p hp
    obtain ⟨slot, hslot, hholds⟩ := hlined.held i p hp
    obtain ⟨node, hnode, hsame⟩ := hholds.selected
    exact ⟨slot.column, node, hcolumn hslot, hnode, hsame⟩
  case rows =>
    intro i p column hp hi hpopulated nodes
    obtain ⟨slot, hslot, rfl⟩ := getElem?_columns.mp hi
    have hfound := h.orderly.mem_found hp hslot hpopulated
    constructor
    · intro hmem
      apply congrArg Prod.snd (List.inj_on_of_nodup_map h.orderly.foundNodup hmem hfound rfl)
    · rintro rfl
      apply hfound
  case finished =>
    intro i p hp hfinished
    obtain ⟨slot, hslot, hfills⟩ := h.orderly.filled i p hp
    use slot.column, hcolumn hslot
    cases hfills with
    | waiting e populating task index searching uncancelled =>
        rw [h.orderly.unfinished _ task searching] at hfinished
        cases hfinished
    | filled populated found => apply populated

/-- Under any interleaving of any callers with the worker of the expansion stream, the columns are in a row,
and right of each selection that stands there is the list that its expansion computed, or a column that waits
for it. -/
theorem Reachable.showsExpansions {w : Workspace σ} {cacheSize : Nat}
    (hp : w.provider.SparesHandles) (h : Reachable w cacheSize s) :
  s.ShowsExpansions
  :=
  showsExpansions_of_isOrderly (h.isOrderly hp)

/-- A workspace whose provider knows nothing. -/
def blank : Workspace Scripted :=
  { provider := Scripted.provider, analysis := {}, files := {}, config := {} }

/-- A group with one member, which is a group without members. -/
def group : Node :=
  .organizer 1 (.organizer "group") [] [.organizer 0 (.organizer "member") [] []]

/-- The group is selected twice, and the first expansion is overtaken while it runs: what it computed is
thrown away, and the second column shows what the second one did. -/
theorem Reachable.showsExpansions_of_overtaken :
  ∃ s, Reachable blank 1 s ∧ s.columns.map Column.elements = [[group.element], [.organizer "member"]] ∧
    s.found.map (fun x => (x.1, x.2.map Node.element)) =
      [(.root 1, [.organizer "member"]), (.root 0, [])] ∧
    s.ShowsExpansions
  := by
  have hselected : Reachable blank 1
      (((ofWorkspace blank 1).perform (.setRoots [group])).perform (.select 0 0)) :=
    .tail (.single (.command _ _)) (.command _ _)
  have hstarted := (hselected.tail (.work (.submit _ [] [] _ _ rfl))).tail (.work (.start _ rfl))
  have hovertaken := hstarted.tail (.command _ (.select 0 0))
  have hdiscarded := ((hovertaken.tail (.work (.request _ _ _ _ _ rfl))).tail
    (.work (.publish _ _ _ _ rfl))).tail (.work (.finish _ _ _ rfl))
  have hrestarted := (hdiscarded.tail (.work (.submit _ [] [] _ _ rfl))).tail (.work (.start _ rfl))
  have hpublished := (hrestarted.tail (.work (.request _ _ _ _ _ rfl))).tail
    (.work (.publish _ _ _ _ rfl))
  exact ⟨_, hpublished, rfl, rfl, Reachable.showsExpansions Scripted.provider_sparesHandles hpublished⟩

end Session

end CallGraph
