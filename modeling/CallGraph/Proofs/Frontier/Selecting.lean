import CallGraph.Proofs.Frontier.Attended
import CallGraph.Proofs.Frontier.Callers
import CallGraph.Proofs.Frontier.Meanwhile

/-!
# Selecting rows

A row that is not there cannot be selected, and trying changes nothing at all.  A row that is there becomes the selected
one of its column, which comes into focus; the columns left of it stay, and in place of those right of it there is a
single one, in which nothing is selected and which gets the neighbours of the selected node once its expansion has run.
-/

namespace CallGraph

open Relation (ReflTransGen)

variable {σ : Type}

namespace Navigation

variable {n n' : Navigation σ} {column row : Nat}

/-! ### Choosing -/

theorem choose_of_noColumn (h : n.frontier.columns[column]? = none) :
  n.choose column row = .error (.noColumn column)
  := by
  rw [Frontier.columns, List.getElem?_map, Option.map_eq_none_iff] at h
  simp only [choose, Frontier.choose, h]

theorem choose_of_noRow {current : Column} (h : n.frontier.columns[column]? = some current)
    (hrow : current.nodes[row]? = none) :
  n.choose column row = .error (.noRow column row)
  := by
  rw [Frontier.columns, List.getElem?_map] at h
  obtain ⟨slot, hslot, rfl⟩ := Option.map_eq_some_iff.mp h
  simp only [choose, Frontier.choose, hslot, hrow]

/-- A row that is there is chosen under the next handle. -/
theorem choose_of_row {slot : Slot} {node : Node} (hslot : n.frontier.slots[column]? = some slot)
    (hnode : slot.column.nodes[row]? = some node) :
  ∃ chosen, n.choose column row = .ok (node, .root n.workspace.searches.signals.next,
      ⟨column, .searching (node.next (.root n.workspace.searches.signals.next))⟩, chosen) ∧
    chosen.frontier.slots = n.frontier.slots.take column ++
      [⟨{ slot.column with selected := some row }, some ⟨.root n.workspace.searches.signals.next, node⟩⟩,
        .populating] ∧
    chosen.workspace.provider = n.workspace.provider ∧
    chosen.workspace.getConfig.1 = n.workspace.getConfig.1
  := by
  simp only [choose, Frontier.choose, hslot, hnode, cancelFrom_take]
  exact ⟨_, rfl, rfl, rfl, rfl⟩

/-! ### Focus -/

theorem focus_runRender (n : Navigation σ) (handle : Token) (e : Element) :
  (n.runRender handle e).frontier.focus = n.frontier.focus
  := by
  rw [runRender]
  split <;> rfl

/-- A column that is put into focus has it. -/
theorem focus_focus (n : Navigation σ) (column : Nat) :
  (n.focus column).frontier.focus = some column
  := by
  have hrefocus : (n.refocus column).2.2.frontier.focus = some column := by
    simp only [refocus, Frontier.refocus]
    split
    · split <;> rfl
    · rfl
  unfold Navigation.focus
  generalize n.refocus column = r at hrefocus
  obtain ⟨handle, node, n'⟩ := r
  cases node with
  | none => exact hrefocus
  | some node =>
    dsimp only
    split
    · exact hrefocus
    · rw [focus_runRender]
      exact hrefocus

theorem focus_runExpansion (n : Navigation σ) (handle : Token) (e : Expansion) :
  (n.runExpansion handle e).frontier.focus = n.frontier.focus
  := by
  rw [runExpansion]
  split
  · rfl
  · split <;> rfl

theorem focus_submit (n : Navigation σ) (handle : Token) (e : Expansion) :
  (n.submit handle e).frontier.focus = n.frontier.focus
  := by
  unfold submit
  dsimp only
  split
  · rfl
  · rw [focus_runExpansion]

/-- What the workers do while no caller does anything, and what others do to the workspace. -/
inductive Labour : Navigation σ → Navigation σ → Prop where
  | expansions (n : Navigation σ) : Labour n n.stepExpansion
  | renders (n : Navigation σ) : Labour n n.stepRender
  | elsewhere (n : Navigation σ) (workspace : Workspace σ) : Labour n { n with workspace }

/-- No worker moves the focus. -/
theorem Labour.focus (h : Labour n n') :
  n'.frontier.focus = n.frontier.focus
  := by
  cases h with
  | expansions =>
    rw [stepExpansion]
    split
    · rfl
    · split <;> rfl
  | renders =>
    rw [stepRender]
    split
    · rfl
    · split <;> rfl
  | elsewhere workspace => rfl

/-! ### Expanding at once -/

/-- An expansion that was run is finished. -/
theorem isFinished_runExpansion (n : Navigation σ) (handle : Token) (e : Expansion) :
  (n.runExpansion handle e).workspace.searches.signals.isFinished handle
  := by
  have hfinish (n : Navigation σ) : (n.finish handle).workspace.searches.signals.isFinished handle :=
    (Signals.isFinished_finish _ handle handle).mpr (.inl rfl)
  rw [runExpansion]
  split
  · exact hfinish n
  · split
    · exact hfinish _
    · exact hfinish n

/-- An expansion that is not cancelled and run fills the column right of its own. -/
theorem slots_runExpansion (hp : n.workspace.provider.SparesHandles) {number : Nat}
    (h : n.workspace.searches.isCancelled (.root number) = false) (search : Search (List Node)) :
  (n.runExpansion (.root number) ⟨column, .searching search⟩).frontier.slots =
    n.frontier.slots.modify (column + 1) fun slot =>
      { slot with column := .populated (n.workspace.run search).1 }
  := by
  have hrun : (n.workspace.run search).2.searches.isCancelled (.root number) = false := by
    rw [(n.workspace.run_spares search hp).cancelled, h]
  simp only [runExpansion, h, Bool.false_eq_true, if_false, publish, Frontier.publish, hrun, finish]

/-- Without multithreading an expansion that is handed over is run. -/
theorem submit_of_sequential (h : n.workspace.getConfig.1.multithreading = false) (handle : Token) (e : Expansion) :
  n.submit handle e = runExpansion { n with workspace := n.workspace.getConfig.2 } handle e
  := by
  unfold submit
  dsimp only
  rw [h]
  rfl

end Navigation

namespace Session

variable {s s' : Session σ}

/-- The columns at the end of a run since a row was selected: those left of it, the column of the row, and a single one
right of it.  That one waits for its rows, but not once the expansion is finished; then it has the list that the
expansion computed, which is what the search for the neighbours of the node came to in the run. -/
structure ShowsSelection (s : Session σ) (run : List (Session σ)) (s' : Session σ) (column row : Nat)
    (current : Column) (node : Node) (handle : Token) : Prop where
  columns : ∃ right, s'.columns = s.columns.take column ++ [{ current with selected := some row }, right] ∧
    ((s'.searches.signals.isFinished handle = false ∧ right = .populating) ∨
      ∃ nodes, right = .populated nodes ∧ (∀ other, (handle, other) ∈ s'.found ↔ other = nodes) ∧
        Advances handle column (node.next handle) run s' (.done nodes))

/-- What it is to select a row that is there. -/
structure Selects (s : Session σ) (strict : Bool) (column row : Nat) (current : Column) (node : Node)
    (handle : Token) : Prop where
  /-- The node is returned. -/
  returns : (s.navigation.selectWith strict column row).1 = .ok node
  /-- The row is selected at once; all that the caller does after that is work. -/
  works : ∃ run s', Ran (s.perform (.select column row)) run s' ∧
    s'.navigation = (s.navigation.selectWith strict column row).2
  /-- From then on, whatever goes on, the columns are those of the selection. -/
  shows : ∀ run s', Ran (s.perform (.select column row)) run s' →
    s.ShowsSelection run s' column row current node handle
  /-- The expansion can always be brought to its end. -/
  ends : ∀ s', Meanwhile (s.perform (.select column row)) s' →
    ∃ s'', Meanwhile s' s'' ∧ s''.searches.signals.isFinished handle
  /-- Whoever selects strictly, or without multithreading, brings it to its end, and finds the neighbours of the node
  then and there. -/
  atOnce : strict = true ∨ s.navigation.workspace.getConfig.1.multithreading = false →
    (s.navigation.selectWith strict column row).2.workspace.searches.signals.isFinished handle ∧
      ∀ e chosen, s.navigation.choose column row = .ok (node, handle, e, chosen) →
        (s.navigation.selectWith strict column row).2.frontier.columns = s.columns.take column ++
          [{ current with selected := some row },
            .populated ((if strict then (chosen.focus column).workspace
              else (chosen.focus column).workspace.getConfig.2).run (node.next handle)).1]
  /-- The column is in focus and the workers leave it there. -/
  focus : ∀ n, ReflTransGen Navigation.Labour (s.navigation.selectWith strict column row).2 n →
    n.frontier.focus = some column

/-- Choosing a row, as a command. -/
theorem perform_select {column row : Nat} {node : Node} {handle : Token} {e : Expansion} {chosen : Navigation σ}
    (h : s.navigation.choose column row = .ok (node, handle, e, chosen)) :
  s.perform (.select column row) =
    { s with
      navigation := chosen, inHand := (handle, e) :: s.inHand, standing := s.standing.take column ++ [⟨handle, node⟩] }
  := by
  rw [perform, h]

/-- While its column waits, the expansion of a selection that stands is not cancelled. -/
theorem IsOrderly.uncancelled_of_populating (h : s.IsOrderly) {i : Nat} {p : Pending} {slot : Slot}
    (hp : s.standing[i]? = some p) (hslot : s.slots[i + 1]? = some slot)
    (hpopulating : slot.column.state = .populating) :
  s.searches.isCancelled p.handle = false
  := by
  cases h.orderly.fills hp hslot with
  | waiting e populating task index searching uncancelled => exact uncancelled
  | filled populated found =>
    rw [hpopulating] at populated
    cases populated

/-- What is shown after a row was selected, whatever goes on. -/
theorem Reachable.showsSelection {w : Workspace σ} {cacheSize : Nat} (hp : w.provider.SparesHandles)
    (h : Reachable w cacheSize s) {column row : Nat} {slot : Slot} {node : Node}
    (hslot : s.slots[column]? = some slot) (hnode : slot.column.nodes[row]? = some node) {run : List (Session σ)}
    (hran : Ran (s.perform (.select column row)) run s') :
  s.ShowsSelection run s' column row slot.column node (.root s.searches.signals.next) ∧
    s'.standing = s.standing.take column ++ [⟨.root s.searches.signals.next, node⟩]
  := by
  obtain ⟨chosen, hchoose, hslots, -⟩ := Navigation.choose_of_row hslot hnode
  have hperform := perform_select hchoose
  have horderly₀ := Reachable.isOrderly hp h
  have hselected : Reachable w cacheSize (s.perform (.select column row)) := .tail h (.command s _)
  have hstands := (Reachable.isOrderly hp hselected).meanwhile hran.meanwhile
  have horderly := hstands.orderly
  have hstanding : s'.standing = s.standing.take column ++ [⟨.root s.searches.signals.next, node⟩] :=
    hstands.standing.trans (congrArg standing hperform)
  have hselectedSlots : (s.perform (.select column row)).slots = s.slots.take column ++
      [⟨{ slot.column with selected := some row }, some ⟨.root s.searches.signals.next, node⟩⟩] ++ [.populating] :=
    ((congrArg slots hperform).trans hslots).trans (List.append_assoc _ [_] [_]).symm
  have hsettles := hstands.slots
  rw [hselectedSlots] at hsettles
  obtain ⟨last, hslots', -, hlast⟩ := hsettles.exists_last
  refine ⟨⟨last.column, ?_, ?_⟩, hstanding⟩
  · rw [columns, Frontier.columns, show s'.navigation.frontier.slots = _ from hslots', List.append_assoc,
      List.map_append, List.map_take]
    rfl
  -- The selection stands at the end, and the last column is the one right of it.
  have hlt : column < s.slots.length := (List.getElem?_eq_some_iff.mp hslot).1
  have hle : column ≤ s.standing.length := by
    rw [horderly₀.orderly.lined.length] at hlt
    exact Nat.lt_succ_iff.mp hlt
  have hp' : s'.standing[column]? = some ⟨.root s.searches.signals.next, node⟩ := by
    rw [hstanding]
    exact getElem?_cut_add _ hle 0
  have hlastSlot : s'.slots[column + 1]? = some last := by
    rw [hslots', List.append_assoc]
    exact getElem?_cut_add _ (Nat.le_of_lt hlt) 1
  have hlastColumn : s'.columns[column + 1]? = some last.column := getElem?_columns.mpr ⟨_, hlastSlot, rfl⟩
  have hshows := showsExpansions_of_isOrderly horderly
  rcases hlast with rfl | ⟨-, nodes, hnodes⟩
  · refine .inl ⟨?_, rfl⟩
    rw [Bool.eq_false_iff]
    intro hfinished
    obtain ⟨waiting, hwaiting, hpopulated⟩ := hshows.finished column _ hp' hfinished
    rw [hlastColumn] at hwaiting
    cases hwaiting
    cases hpopulated
  · rw [hnodes] at hlastColumn
    have hfound := hshows.rows column _ _ hp' hlastColumn rfl
    have hcomputed := (Computed.select horderly₀ hslot hnode).ran (Reachable.isOrderly hp hselected) hran
    exact .inr ⟨nodes, hnodes, hfound, hcomputed.found nodes ((hfound nodes).mpr rfl)⟩

/-- When the expansion of a selection is run at once, the column right of it has what the search comes to. -/
theorem IsOrderly.columns_runExpansion (h : s.IsOrderly) {column number : Nat} {before : List Slot} {slot : Slot}
    {node : Node} (hslots : s.slots = before ++ [slot, .populating]) (hlength : before.length = column)
    (hstanding : s.standing[column]? = some ⟨.root number, node⟩) (search : Search (List Node)) :
  (s.navigation.runExpansion (.root number) ⟨column, .searching search⟩).frontier.columns =
    before.map (·.column) ++ [slot.column, .populated (s.navigation.workspace.run search).1]
  := by
  have hslot : s.slots[column + 1]? = some .populating := by
    rw [hslots, ← hlength, List.getElem?_append_right (Nat.le_succ _), Nat.succ_sub (Nat.le_refl _), Nat.sub_self]
    rfl
  have huncancelled : s.searches.isCancelled (.root number) = false :=
    h.uncancelled_of_populating hstanding hslot rfl
  have hslots : s.navigation.frontier.slots = before ++ [slot, .populating] := hslots
  rw [Frontier.columns, Navigation.slots_runExpansion h.provider huncancelled, hslots, ← hlength, List.modify,
    List.modifyTailIdx_add, List.map_append]
  rfl

/-- Whatever goes on after a row was selected, its expansion can be brought to its end. -/
theorem Reachable.exists_finished {w : Workspace σ} {cacheSize : Nat} (hp : w.provider.SparesHandles)
    (h : Reachable w cacheSize s) {q : Pending} (hq : q ∈ s.standing) :
  ∃ s', Meanwhile s s' ∧ s'.searches.signals.isFinished q.handle
  := by
  obtain ⟨s', hworks, hdrained⟩ := s.exists_works_isDrained
  have hmeanwhile := Meanwhile.works hworks
  refine ⟨s', hmeanwhile, ?_⟩
  apply (Reachable.isAttended hp (h.meanwhile hmeanwhile)).isFinished_of_isDrained hdrained
  rw [((Reachable.isOrderly hp h).meanwhile hmeanwhile).standing]
  exact hq

/-- Selecting a row that is there. -/
theorem Reachable.selects {w : Workspace σ} {cacheSize : Nat} (hp : w.provider.SparesHandles)
    (h : Reachable w cacheSize s) (strict : Bool) {column row : Nat} {slot : Slot} {node : Node}
    (hslot : s.slots[column]? = some slot) (hnode : slot.column.nodes[row]? = some node) :
  s.Selects strict column row slot.column node (.root s.searches.signals.next)
  := by
  obtain ⟨chosen, hchoose, hslots, -, hconfig⟩ := Navigation.choose_of_row hslot hnode
  have hselect : s.navigation.selectWith strict column row = (.ok node,
      if strict then (chosen.focus column).runExpansion (.root s.searches.signals.next)
        ⟨column, .searching (node.next (.root s.searches.signals.next))⟩
      else (chosen.focus column).submit (.root s.searches.signals.next)
        ⟨column, .searching (node.next (.root s.searches.signals.next))⟩) := by
    rw [Navigation.selectWith, hchoose]
    rfl
  have hselected : Reachable w cacheSize (s.perform (.select column row)) := .tail h (.command s _)
  constructor
  case returns => rw [hselect]
  case works =>
    obtain ⟨s', hworks, hnavigation, -⟩ := s.leads_selectWith strict column row
    obtain ⟨run, hran⟩ := (Meanwhile.works hworks).exists_ran
    exact ⟨run, s', hran, hnavigation⟩
  case shows => exact fun run s' hran => (Reachable.showsSelection hp h hslot hnode hran).1
  case ends =>
    intro s' hmeanwhile
    obtain ⟨run, hran⟩ := hmeanwhile.exists_ran
    apply Reachable.exists_finished hp (hselected.meanwhile hmeanwhile) (q := ⟨.root s.searches.signals.next, node⟩)
    rw [(Reachable.showsSelection hp h hslot hnode hran).2]
    exact List.mem_concat_self
  case atOnce =>
    intro hatOnce
    have hlt : column < s.slots.length := (List.getElem?_eq_some_iff.mp hslot).1
    have hlength : (s.slots.take column).length = column := List.length_take_of_le (Nat.le_of_lt hlt)
    have hle : column ≤ s.standing.length := by
      rw [(Reachable.isOrderly hp h).orderly.lined.length] at hlt
      exact Nat.lt_succ_iff.mp hlt
    rw [perform_select hchoose] at hselected
    have hfocused := hselected.tail (.work (.focus _ column))
    have hfocusedSlots := (Shows.focus chosen column).slots.trans hslots
    have hcolumns : s.columns.take column = (s.slots.take column).map (·.column) := List.map_take.symm
    rw [hcolumns, hselect]
    cases strict with
    | true =>
      dsimp only
      rw [if_pos rfl]
      refine ⟨Navigation.isFinished_runExpansion _ _ _, fun e' chosen' hchoose' => ?_⟩
      cases hchoose.symm.trans hchoose'
      exact (Reachable.isOrderly hp hfocused).columns_runExpansion hfocusedSlots hlength
        (getElem?_cut_add _ hle 0) _
    | false =>
      have hsequential : (chosen.focus column).workspace.getConfig.1.multithreading = false := by
        rw [(Shows.focus chosen column).config, hconfig, hatOnce.resolve_left Bool.false_ne_true]
      dsimp only
      rw [if_neg Bool.false_ne_true, Navigation.submit_of_sequential hsequential]
      refine ⟨Navigation.isFinished_runExpansion _ _ _, fun e' chosen' hchoose' => ?_⟩
      cases hchoose.symm.trans hchoose'
      have hconfigured := hfocused.tail (.work (.configure _))
      exact (Reachable.isOrderly hp hconfigured).columns_runExpansion hfocusedSlots hlength
        (getElem?_cut_add _ hle 0) _
  case focus =>
    intro n hlabour
    induction hlabour with
    | tail _ hstep ih => rw [hstep.focus, ih]
    | refl =>
      rw [hselect]
      cases strict with
      | true =>
        dsimp only
        rw [if_pos rfl]
        exact (Navigation.focus_runExpansion _ _ _).trans (Navigation.focus_focus chosen column)
      | false => exact (Navigation.focus_submit _ _ _).trans (Navigation.focus_focus chosen column)

/-- In every session that can come about, selecting a row fails if the row is not there, and changes nothing then; if it
is there, what is left of it stays, and what is right of it gives way to the neighbours of its node. -/
theorem Reachable.selects_locally {w : Workspace σ} {cacheSize : Nat} (hp : w.provider.SparesHandles)
    (h : Reachable w cacheSize s) (strict : Bool) (column row : Nat) :
  match s.columns[column]? with
  | none => s.navigation.selectWith strict column row = (.error (.noColumn column), s.navigation)
  | some current =>
    match current.nodes[row]? with
    | none => s.navigation.selectWith strict column row = (.error (.noRow column row), s.navigation)
    | some node => s.Selects strict column row current node (.root s.searches.signals.next)
  := by
  cases hcurrent : s.columns[column]? with
  | none =>
    dsimp only
    rw [Navigation.selectWith, Navigation.choose_of_noColumn hcurrent]
  | some current =>
    obtain ⟨slot, hslot, rfl⟩ := getElem?_columns.mp hcurrent
    cases hnode : slot.column.nodes[row]? with
    | none =>
      dsimp only
      rw [hnode, Navigation.selectWith, Navigation.choose_of_noRow hcurrent hnode]
    | some node =>
      dsimp only
      rw [hnode]
      exact Reachable.selects hp h strict hslot hnode

/-- While the group is being expanded, neither a column nor a row that is not there can be selected, and the group can
be selected again; the worker finds its member then. -/
theorem Reachable.selects_locally_of_group :
  ∃ s, Reachable blank 1 s ∧ s.tasks.map Prod.fst = [.root 0] ∧
    s.navigation.selectWith false 7 0 = (.error (.noColumn 7), s.navigation) ∧
    s.navigation.selectWith true 0 5 = (.error (.noRow 0 5), s.navigation) ∧
    s.Selects true 0 0 ⟨[group], .populated, some 0⟩ group (.root 1) ∧
    s.Selects false 0 0 ⟨[group], .populated, some 0⟩ group (.root 1) ∧
    ∃ run s', Ran (s.perform (.select 0 0)) run s' ∧ s'.searches.signals.isFinished (.root 1) ∧
      s'.columns.map Column.elements = [[group.element], [.organizer "member"]]
  := by
  have hselected : Reachable blank 1
      (((ofWorkspace blank 1).perform (.setRoots [group])).perform (.select 0 0)) :=
    .tail (.single (.command _ _)) (.command _ _)
  have hselects := Reachable.selects_locally Scripted.provider_sparesHandles hselected
  let again := (((ofWorkspace blank 1).perform (.setRoots [group])).perform (.select 0 0)).perform (.select 0 0)
  have hsubmitted : Ran again [again] _ := .beside .stay (.work (.submit again [] _ _ _ rfl))
  have hstarted := hsubmitted.beside (.work (.start _ rfl))
  have hpublished := (hstarted.beside (.work (.request _ _ _ _ _ rfl))).beside (.work (.publish _ _ _ _ rfl))
  have hfinished := hpublished.beside (.work (.finish _ _ _ rfl))
  refine ⟨_, hselected, rfl, hselects false 7 0, hselects true 0 5, hselects true 0 0, hselects false 0 0,
    _, _, hfinished, ?_, ?_⟩
  · decide +kernel
  · rfl

end Session

end CallGraph
