import CallGraph.Frontier.Replay
import CallGraph.Proofs.Bookmark
import CallGraph.Proofs.Frontier.Selecting

/-!
# Following bookmarks

A bookmark is followed column by column, while work goes on beside it: the rows of a column are waited for, the row to
follow is looked up in what the column then shows, and it is selected strictly.  What is reported is what was done: each
step tells the row that was selected in its column, the walk stops where nothing matches, no selection fails, and the
path afterwards has the reported rows and, where the walk stopped, the first row of the column where it did.
-/

namespace CallGraph

open Relation (ReflTransGen)

variable {σ : Type}

/-- A column that a walk came to: what it showed, and the row that was selected in it, if any, with the result. -/
structure Visit where
  shown : Column
  call : Option (Nat × Except FrontierError Node)

namespace Session

variable {s s' s₁ s₂ : Session σ} {column row : Nat}

/-- The expansion left of a column, from which it has its rows, is finished. -/
def HasWaited (s : Session σ) (column : Nat) : Prop :=
  ∀ left slot p, column = left + 1 → s.slots[left]? = some slot → slot.pending = some p →
    s.searches.signals.isFinished p.handle

/-- A strict selection: the row is refused, or it is chosen, and whatever goes on then, the expansion is finished in the
end. -/
inductive SelectsStrictly (s : Session σ) (column row : Nat) : Except FrontierError Node → Session σ → Prop where
  | refused (e : FrontierError) (refused : s.navigation.choose column row = .error e) :
      SelectsStrictly s column row (.error e) s
  | granted (node : Node) (handle : Token) (e : Expansion) (chosen : Navigation σ) (s' : Session σ)
      (granted : s.navigation.choose column row = .ok (node, handle, e, chosen))
      (meanwhile : Meanwhile (s.perform (.select column row)) s')
      (finished : s'.searches.signals.isFinished handle) :
      SelectsStrictly s column row (.ok node) s'

/-- A walk along a bookmark from a column on, with the columns that it comes to and what it reports. -/
inductive Walk : Nat → Session σ → Bookmark → List Visit → ReplayOutcome → Session σ → Prop where
  /-- Nothing is left of the bookmark. -/
  | done (column : Nat) (s : Session σ) : Walk column s [] [] {} s
  /-- There is no such column. -/
  | lost {column : Nat} {s s' : Session σ} {target : Element} {targets : Bookmark} (meanwhile : Meanwhile s s')
      (waited : s'.HasWaited column) (missing : s'.columns[column]? = none) :
      Walk column s (target :: targets) [] { stoppedAt := some column } s'
  /-- A row matches and is selected. -/
  | followed {column row : Nat} {degree : MatchDegree} {current : Column} {node : Node} {s s₁ s₂ s₃ s' : Session σ}
      {target : Element} {targets : Bookmark} {visits : List Visit} {outcome : ReplayOutcome}
      (meanwhile : Meanwhile s s₁) (waited : s₁.HasWaited column) (shown : s₁.columns[column]? = some current)
      (found : findMatch current.elements target = some (row, degree)) (meanwhile' : Meanwhile s₁ s₂)
      (selected : SelectsStrictly s₂ column row (.ok node) s₃)
      (rest : Walk (column + 1) s₃ targets visits outcome s') :
      Walk column s (target :: targets) (⟨current, some (row, .ok node)⟩ :: visits)
        { outcome with steps := ⟨column, row, degree⟩ :: outcome.steps } s'
  /-- A row matches, or the first one is taken, and it cannot be selected. -/
  | refused {column row : Nat} {current : Column} {e : FrontierError} {s s₁ s₂ s₃ s' : Session σ}
      {target : Element} {targets : Bookmark} (meanwhile : Meanwhile s s₁) (waited : s₁.HasWaited column)
      (shown : s₁.columns[column]? = some current)
      (found : (∃ degree, findMatch current.elements target = some (row, degree)) ∨
        (findMatch current.elements target = none ∧ current.nodes ≠ [] ∧ row = 0))
      (meanwhile' : Meanwhile s₁ s₂) (selected : SelectsStrictly s₂ column row (.error e) s₃)
      (after : Meanwhile s₃ s') :
      Walk column s (target :: targets) [⟨current, some (row, .error e)⟩] { stoppedAt := some column } s'
  /-- No row matches, and there is none. -/
  | stopped {column : Nat} {current : Column} {s s₁ : Session σ} {target : Element} {targets : Bookmark}
      (meanwhile : Meanwhile s s₁) (waited : s₁.HasWaited column) (shown : s₁.columns[column]? = some current)
      (unmatched : findMatch current.elements target = none) (empty : current.nodes = []) :
      Walk column s (target :: targets) [⟨current, none⟩] { stoppedAt := some column } s₁
  /-- No row matches, and the first one is selected. -/
  | strayed {column : Nat} {current : Column} {node : Node} {s s₁ s₂ s₃ : Session σ} {target : Element}
      {targets : Bookmark} (meanwhile : Meanwhile s s₁) (waited : s₁.HasWaited column)
      (shown : s₁.columns[column]? = some current) (unmatched : findMatch current.elements target = none)
      (nonempty : current.nodes ≠ []) (meanwhile' : Meanwhile s₁ s₂)
      (selected : SelectsStrictly s₂ column 0 (.ok node) s₃) :
      Walk column s (target :: targets) [⟨current, some (0, .ok node)⟩] { stoppedAt := some column } s₃

/-! ### Columns along the way -/

/-- The path has the selected nodes of all columns but the last. -/
theorem IsOrderly.path_eq (h : s.IsOrderly) :
  s.navigation.frontier.path.map some = s.columns.dropLast.map Column.selectedNode?
  := by
  have hlined := h.orderly.lined
  change (Frontier.selections s.slots).map some = _
  rw [hlined.selections_eq, List.dropLast_eq_take, s.length_columns, hlined.length, Nat.add_sub_cancel,
    columns, Frontier.columns, ← List.map_take, List.map_map]
  rfl

/-- The columns stay as they are while no command is given, but that the last one may get its rows. -/
structure KeepsColumns (s s' : Session σ) : Prop where
  length : s'.columns.length = s.columns.length
  dropLast : s'.columns.dropLast = s.columns.dropLast
  populated : ∀ (i : Nat) (c : Column), s.columns[i]? = some c → c.state = .populated → s'.columns[i]? = some c

theorem Stands.keepsColumns (h : s.Stands s') :
  s.KeepsColumns s'
  := by
  have hslots := h.slots
  constructor
  · rw [length_columns, length_columns, hslots.length_eq]
  · change (s'.slots.map (·.column)).dropLast = (s.slots.map (·.column)).dropLast
    rw [← List.map_dropLast, ← List.map_dropLast, hslots.dropLast_eq]
  · intro i c hc hpopulated
    obtain ⟨slot, hslot, rfl⟩ := getElem?_columns.mp hc
    exact getElem?_columns.mpr ⟨slot, hslots.getElem?_of_populated hslot hpopulated, rfl⟩

/-- The columns left of one that there is. -/
theorem KeepsColumns.take (h : s.KeepsColumns s') (hlt : column < s.columns.length) :
  s'.columns.take column = s.columns.take column
  := by
  have htake (l : List Column) (hl : column < l.length) : l.take column = l.dropLast.take column := by
    rw [List.dropLast_eq_take, List.take_take, Nat.min_eq_left (Nat.le_sub_one_of_lt hl)]
  rw [htake _ hlt, htake _ (h.length ▸ hlt), h.dropLast]

/-- A column whose rows were waited for has them. -/
theorem IsOrderly.populated_of_hasWaited (h : s.IsOrderly) (hwaited : s.HasWaited column) {current : Column}
    (hcurrent : s.columns[column]? = some current) :
  current.state = .populated
  := by
  have hlined := h.orderly.lined
  obtain ⟨slot, hslot, rfl⟩ := getElem?_columns.mp hcurrent
  cases column with
  | zero =>
    obtain ⟨root, hroot, hpopulated⟩ := hlined.roots
    rw [hslot] at hroot
    obtain rfl := Option.some.inj hroot
    exact hpopulated
  | succ left =>
    have hlt : left < s.standing.length := by
      have hlt := (List.getElem?_eq_some_iff.mp hslot).1
      rw [hlined.length] at hlt
      exact Nat.lt_of_succ_lt_succ hlt
    have hp := List.getElem?_eq_getElem hlt
    obtain ⟨waiting, hwaiting, hholds⟩ := hlined.held left _ hp
    have hfinished := hwaited left waiting _ rfl hwaiting hholds.pending
    obtain ⟨column, hcolumn, hpopulated⟩ := (showsExpansions_of_isOrderly h).finished left _ hp hfinished
    rw [hcurrent] at hcolumn
    obtain rfl := Option.some.inj hcolumn
    exact hpopulated

/-- A row that is there is granted, and in the end the column right of it has its rows. -/
theorem Reachable.selectsStrictly {w : Workspace σ} {cacheSize : Nat} (hp : w.provider.SparesHandles)
    (h : Reachable w cacheSize s) {current : Column} {node : Node} (hcurrent : s.columns[column]? = some current)
    (hnode : current.nodes[row]? = some node) {result : Except FrontierError Node}
    (hselects : SelectsStrictly s column row result s') :
  result = .ok node ∧ Reachable w cacheSize s' ∧
    ∃ nodes, s'.columns = s.columns.take column ++ [{ current with selected := some row }, .populated nodes]
  := by
  obtain ⟨slot, hslot, rfl⟩ := getElem?_columns.mp hcurrent
  obtain ⟨chosen, hchoose, -⟩ := Navigation.choose_of_row hslot hnode
  cases hselects with
  | refused e refused =>
    rw [hchoose] at refused
    cases refused
  | granted node' handle e chosen' _ granted meanwhile finished =>
    rw [hchoose] at granted
    cases granted
    have hselected : Reachable w cacheSize (s.perform (.select column row)) := .tail h (.command s _)
    obtain ⟨run, hran⟩ := meanwhile.exists_ran
    obtain ⟨⟨right, hcolumns, hright⟩, -⟩ := Reachable.showsSelection hp h hslot hnode hran
    refine ⟨rfl, hselected.meanwhile meanwhile, ?_⟩
    rcases hright with ⟨hunfinished, -⟩ | ⟨nodes, rfl, -⟩
    · exact absurd finished (Bool.eq_false_iff.mp hunfinished)
    · exact ⟨nodes, hcolumns⟩

/-! ### Accounts -/

/-- The rows that a walk reports, in the columns that it came to. -/
def reported (outcome : ReplayOutcome) (visits : List Visit) : List (Option Node) :=
  outcome.steps.zipWith (fun step visit => visit.shown.nodes[step.row]?) visits

/-- The first row of the column where a walk stopped, if it did and there is one. -/
def strayed (outcome : ReplayOutcome) (visits : List Visit) : List (Option Node) :=
  (visits[outcome.steps.length]?.bind (·.shown.nodes.head?)).toList.map some

/-- How the report of a walk from a column on agrees with the columns that it came to and with those afterwards. -/
structure Accounts (column : Nat) (bookmark : Bookmark) (visits : List Visit) (outcome : ReplayOutcome)
    (s s' : Session σ) : Prop where
  steps : ∀ (i : Nat) (step : ReplayStep), outcome.steps[i]? = some step → step.column = column + i ∧
    ∃ visit target, visits[i]? = some visit ∧ bookmark[i]? = some target ∧
      Matches target visit.shown.elements step.row step.degree
  le : outcome.steps.length ≤ bookmark.length
  stoppedAt : outcome.stoppedAt =
    if outcome.steps.length = bookmark.length then none else some (column + outcome.steps.length)
  length : visits.length =
    if outcome.steps.length = bookmark.length then outcome.steps.length else outcome.steps.length + 1
  apart : ∀ visit target, visits[outcome.steps.length]? = some visit → bookmark[outcome.steps.length]? = some target →
    ∀ e ∈ visit.shown.elements, matchDegree e target = none
  granted : ∀ visit ∈ visits, ∀ row result, visit.call = some (row, result) →
    ∃ node, result = .ok node ∧ visit.shown.nodes[row]? = some node
  left : s'.columns.take column = s.columns.take column
  kept : ∀ i visit, visits[i]? = some visit → ∃ c, s'.columns[column + i]? = some c ∧ c.nodes = visit.shown.nodes
  selected : bookmark ≠ [] ∨ column ≠ 0 → s'.columns.dropLast.map Column.selectedNode? =
    (s.columns.take column).map Column.selectedNode? ++ reported outcome visits ++ strayed outcome visits

/-- Nothing is left of the bookmark. -/
theorem Accounts.nil (h : column = 0 ∨ s.columns.length = column + 1) :
  Accounts column [] [] {} s s
  := by
  have hnone {α : Type} {i : Nat} {a : α} (h : ([] : List α)[i]? = some a) : False := by
    rw [List.getElem?_nil] at h
    cases h
  constructor
  case steps => exact fun i step hstep => (hnone hstep).elim
  case le => exact Nat.le_refl 0
  case stoppedAt => rfl
  case length => rfl
  case apart => exact fun visit target hvisit => (hnone hvisit).elim
  case granted => exact fun visit hvisit => absurd hvisit List.not_mem_nil
  case left => rfl
  case kept => exact fun i visit hvisit => (hnone hvisit).elim
  case selected =>
    intro hcolumn
    obtain rfl | hlength := h
    · obtain hcolumn | hcolumn := hcolumn
      · contradiction
      · contradiction
    · rw [List.dropLast_eq_take, hlength, Nat.add_sub_cancel]
      have hempty : reported {} [] ++ strayed {} [] = [] := rfl
      rw [List.append_assoc, hempty, List.append_nil]

/-- A row is followed, and the rest of the bookmark after it. -/
theorem Accounts.followed {target : Element} {targets : Bookmark} {visits : List Visit} {outcome : ReplayOutcome}
    {current : Column} {node : Node} {degree : MatchDegree}
    (hmatches : Matches target current.elements row degree) (hnode : current.nodes[row]? = some node)
    (hleft : s₁.columns.take column = s.columns.take column)
    (hcolumn : s₁.columns[column]? = some { current with selected := some row })
    (h : Accounts (column + 1) targets visits outcome s₁ s') :
  Accounts column (target :: targets) (⟨current, some (row, .ok node)⟩ :: visits)
    { outcome with steps := ⟨column, row, degree⟩ :: outcome.steps } s s'
  := by
  have htake : s₁.columns.take (column + 1) =
      s.columns.take column ++ [{ current with selected := some row }] := by
    rw [List.take_add_one, hleft, hcolumn]
    rfl
  constructor
  case steps =>
    intro i step hstep
    cases i with
    | zero =>
      cases hstep
      exact ⟨rfl, _, target, rfl, rfl, hmatches⟩
    | succ i =>
      obtain ⟨hcolumn, hrest⟩ := h.steps i step hstep
      exact ⟨by rw [hcolumn, Nat.add_right_comm, Nat.add_assoc], hrest⟩
  case le => exact Nat.succ_le_succ h.le
  case stoppedAt =>
    simp only [h.stoppedAt, List.length_cons, Nat.add_right_cancel_iff, Nat.add_right_comm, Nat.add_assoc]
  case length =>
    simp only [h.length, List.length_cons, Nat.add_right_cancel_iff]
    split <;> rfl
  case apart => exact h.apart
  case granted =>
    refine List.forall_mem_cons.mpr ⟨?_, h.granted⟩
    rintro _ _ ⟨⟩
    exact ⟨node, rfl, hnode⟩
  case left =>
    have hrest := congrArg (List.take column) h.left
    rwa [List.take_take, List.take_take, Nat.min_eq_left (Nat.le_succ column), hleft] at hrest
  case kept =>
    intro i visit hvisit
    cases i with
    | zero =>
      cases hvisit
      have hlast := congrArg (·[column]?) h.left
      simp only [List.getElem?_take_of_lt (Nat.lt_succ_self column), hcolumn] at hlast
      exact ⟨_, hlast, rfl⟩
    | succ i =>
      obtain ⟨c, hc, hnodes⟩ := h.kept i visit hvisit
      exact ⟨c, by rw [← hc, Nat.add_right_comm, Nat.add_assoc], hnodes⟩
  case selected =>
    intro _
    have hselected : Column.selectedNode? { current with selected := some row } = some node := hnode
    rw [h.selected (.inr (Nat.succ_ne_zero column)), htake, List.map_append, List.map_singleton, hselected,
      List.append_assoc (List.map _ _)]
    simp only [reported, List.zipWith_cons_cons, hnode]
    rfl

/-- The walk stops in a column, in which nothing matches. -/
theorem Accounts.stopped {target : Element} {targets : Bookmark} {current : Column}
    {call : Option (Nat × Except FrontierError Node)} (hapart : ∀ e ∈ current.elements, matchDegree e target = none)
    (hgranted : ∀ row result, call = some (row, result) →
      ∃ node, result = .ok node ∧ current.nodes[row]? = some node)
    (hleft : s'.columns.take column = s.columns.take column)
    (hkept : ∃ c, s'.columns[column]? = some c ∧ c.nodes = current.nodes)
    (hselected : s'.columns.dropLast.map Column.selectedNode? =
      (s.columns.take column).map Column.selectedNode? ++ current.nodes.head?.toList.map some) :
  Accounts column (target :: targets) [⟨current, call⟩] { stoppedAt := some column } s s'
  := by
  constructor
  case steps => exact nofun
  case le => exact Nat.zero_le _
  case stoppedAt => rfl
  case length => rfl
  case apart =>
    rintro _ _ ⟨⟩ ⟨⟩
    exact hapart
  case granted =>
    intro visit hvisit
    rw [List.mem_singleton.mp hvisit]
    exact hgranted
  case left => exact hleft
  case kept =>
    intro i visit hvisit
    cases i with
    | zero =>
      cases hvisit
      exact hkept
    | succ i => cases hvisit
  case selected =>
    intro _
    rw [hselected, reported, List.zipWith_nil_left, List.append_nil]
    rfl

/-! ### Walks -/

/-- What a walk meets in a column: the columns left of it have stayed, and it shows its rows until one is selected. -/
structure Meets (s s₁ s₂ : Session σ) (column : Nat) (current : Column) : Prop where
  left₁ : s₁.columns.take column = s.columns.take column
  left₂ : s₂.columns.take column = s.columns.take column
  current : s₂.columns[column]? = some current

theorem Reachable.meets {w : Workspace σ} {cacheSize : Nat} (hp : w.provider.SparesHandles)
    (h : Reachable w cacheSize s) {current : Column} (hlt : column < s.columns.length) (hmeanwhile : Meanwhile s s₁)
    (hwaited : s₁.HasWaited column) (hshown : s₁.columns[column]? = some current) (hmeanwhile' : Meanwhile s₁ s₂) :
  s.Meets s₁ s₂ column current
  := by
  have horderly := Reachable.isOrderly hp (h.meanwhile hmeanwhile)
  have hkeeps := ((Reachable.isOrderly hp h).meanwhile hmeanwhile).keepsColumns
  have hkeeps' := (horderly.meanwhile hmeanwhile').keepsColumns
  have hleft := hkeeps.take hlt
  refine ⟨hleft, (hkeeps'.take (hkeeps.length ▸ hlt)).trans hleft, ?_⟩
  exact hkeeps'.populated column current hshown (horderly.populated_of_hasWaited hwaited hshown)

/-- A row that matches is there. -/
theorem exists_node_of_matches {target : Element} {current : Column} {degree : MatchDegree}
    (h : Matches target current.elements row degree) :
  ∃ node, current.nodes[row]? = some node
  := by
  obtain ⟨e, he, -⟩ := h.exists_row
  rw [Column.elements, List.getElem?_map] at he
  obtain ⟨node, hnode, -⟩ := Option.map_eq_some_iff.mp he
  exact ⟨node, hnode⟩

/-- The columns after a strict selection on a walk. -/
theorem Meets.selected {current right : Column} (h : s.Meets s₁ s₂ column current) {s₃ : Session σ}
    (hcolumns : s₃.columns = s₂.columns.take column ++ [{ current with selected := some row }, right]) :
  s₃.columns.take column = s.columns.take column ∧
    s₃.columns[column]? = some { current with selected := some row } ∧ s₃.columns.length = column + 2 ∧
    s₃.columns.dropLast = s.columns.take column ++ [{ current with selected := some row }]
  := by
  have hle : column ≤ s₂.columns.length := Nat.le_of_lt (List.getElem?_eq_some_iff.mp h.current).1
  refine ⟨?_, ?_, ?_, ?_⟩
  · rw [hcolumns, List.take_left' (List.length_take_of_le hle), h.left₂]
  · rw [hcolumns]
    exact getElem?_cut_add _ hle 0
  · rw [hcolumns, length_cut _ hle]
    rfl
  · rw [hcolumns, List.dropLast_append_cons, h.left₂]
    rfl

/-- A column without rows is the last one. -/
theorem IsOrderly.length_of_empty (h : s.IsOrderly) {current : Column} (hcurrent : s.columns[column]? = some current)
    (hempty : current.nodes = []) :
  s.columns.length = column + 1
  := by
  have hlt := (List.getElem?_eq_some_iff.mp hcurrent).1
  rcases Nat.lt_or_eq_of_le (Nat.succ_le_of_lt hlt) with hlt | heq
  · obtain ⟨row, -, hrow⟩ := (showsExpansions_of_isOrderly h).selected column current hcurrent hlt
    rw [hempty] at hrow
    exact absurd hrow (Nat.not_lt_zero row)
  · exact heq.symm

/-- A strict selection is a run of the session. -/
theorem SelectsStrictly.steps {result : Except FrontierError Node} (h : SelectsStrictly s column row result s') :
  ReflTransGen Step s s'
  := by
  cases h with
  | refused e refused => exact .refl
  | granted node handle e chosen _ granted meanwhile finished => exact .head (.command s _) meanwhile.steps

/-- A walk is a run of the session. -/
theorem Walk.steps {bookmark : Bookmark} {visits : List Visit} {outcome : ReplayOutcome}
    (h : Walk column s bookmark visits outcome s') :
  ReflTransGen Step s s'
  := by
  induction h with
  | done column s => exact .refl
  | lost meanwhile waited missing => exact meanwhile.steps
  | followed meanwhile waited shown found meanwhile' selected rest ih =>
    exact ((meanwhile.steps.trans meanwhile'.steps).trans selected.steps).trans ih
  | refused meanwhile waited shown found meanwhile' selected after =>
    exact ((meanwhile.steps.trans meanwhile'.steps).trans selected.steps).trans after.steps
  | stopped meanwhile waited shown unmatched empty => exact meanwhile.steps
  | strayed meanwhile waited shown unmatched nonempty meanwhile' selected =>
    exact (meanwhile.steps.trans meanwhile'.steps).trans selected.steps

/-- A walk reports what it did. -/
theorem Walk.accounts {w : Workspace σ} {cacheSize : Nat} (hp : w.provider.SparesHandles) {bookmark : Bookmark}
    {visits : List Visit} {outcome : ReplayOutcome} (hwalk : Walk column s bookmark visits outcome s')
    (h : Reachable w cacheSize s) (hcolumn : column = 0 ∨ s.columns.length = column + 1) :
  Accounts column bookmark visits outcome s s'
  := by
  have hlt {s : Session σ} (h : Reachable w cacheSize s) {column : Nat}
      (hcolumn : column = 0 ∨ s.columns.length = column + 1) : column < s.columns.length := by
    obtain rfl | hlength := hcolumn
    · exact (showsExpansions_of_isOrderly (Reachable.isOrderly hp h)).nonempty
    · exact hlength ▸ Nat.lt_succ_self column
  induction hwalk with
  | done column s => exact .nil hcolumn
  | @lost column s s' target targets meanwhile waited missing =>
    have hkeeps := ((Reachable.isOrderly hp h).meanwhile meanwhile).keepsColumns
    rw [List.getElem?_eq_none_iff, hkeeps.length] at missing
    exact absurd (hlt h hcolumn) (Nat.not_lt_of_le missing)
  | @followed column row degree current node s s₁ s₂ s₃ s' target targets visits outcome meanwhile waited shown found
      meanwhile' selected rest ih =>
    have hmeets := Reachable.meets hp h (hlt h hcolumn) meanwhile waited shown meanwhile'
    have hmatches := matches_of_findMatch found
    obtain ⟨node', hnode⟩ := exists_node_of_matches hmatches
    obtain ⟨heq, hreachable, right, hcolumns⟩ :=
      Reachable.selectsStrictly hp ((h.meanwhile meanwhile).meanwhile meanwhile') hmeets.current hnode selected
    cases heq
    obtain ⟨hleft, hcurrent, hlength, -⟩ := hmeets.selected hcolumns
    exact .followed hmatches hnode hleft hcurrent (ih hreachable (.inr hlength))
  | @refused column row current e s s₁ s₂ s₃ s' target targets meanwhile waited shown found meanwhile' selected after =>
    have hmeets := Reachable.meets hp h (hlt h hcolumn) meanwhile waited shown meanwhile'
    have hnode : ∃ node, current.nodes[row]? = some node := by
      obtain ⟨degree, found⟩ | ⟨-, hnonempty, rfl⟩ := found
      · exact exists_node_of_matches (matches_of_findMatch found)
      · exact ⟨_, List.getElem?_eq_getElem (List.length_pos_of_ne_nil hnonempty)⟩
    obtain ⟨node, hnode⟩ := hnode
    obtain ⟨heq, -⟩ :=
      Reachable.selectsStrictly hp ((h.meanwhile meanwhile).meanwhile meanwhile') hmeets.current hnode selected
    cases heq
  | @stopped column current s s₁ target targets meanwhile waited shown unmatched empty =>
    have hmeets := Reachable.meets hp h (hlt h hcolumn) meanwhile waited shown .refl
    have hlength := (Reachable.isOrderly hp (h.meanwhile meanwhile)).length_of_empty shown empty
    refine .stopped (apart_of_findMatch unmatched) nofun hmeets.left₁ ⟨current, shown, rfl⟩ ?_
    rw [List.dropLast_eq_take, hlength, Nat.add_sub_cancel, hmeets.left₁, empty]
    exact (List.append_nil _).symm
  | @strayed column current node s s₁ s₂ s₃ target targets meanwhile waited shown unmatched nonempty meanwhile'
      selected =>
    have hmeets := Reachable.meets hp h (hlt h hcolumn) meanwhile waited shown meanwhile'
    obtain ⟨first, hnode⟩ : ∃ first, current.nodes[0]? = some first :=
      ⟨_, List.getElem?_eq_getElem (List.length_pos_of_ne_nil nonempty)⟩
    obtain ⟨heq, hreachable, right, hcolumns⟩ :=
      Reachable.selectsStrictly hp ((h.meanwhile meanwhile).meanwhile meanwhile') hmeets.current hnode selected
    cases heq
    obtain ⟨hleft, hcurrent, -, hdropLast⟩ := hmeets.selected hcolumns
    refine .stopped (apart_of_findMatch unmatched) ?_ hleft ⟨_, hcurrent, rfl⟩ ?_
    · rintro _ _ ⟨⟩
      exact ⟨_, rfl, hnode⟩
    · have hselected : Column.selectedNode? { current with selected := some 0 } = some node := hnode
      rw [hdropLast, List.map_append, List.map_singleton, hselected, List.head?_eq_getElem?, hnode]
      rfl

/-- What a bookmark that was followed is reported to have come to, and what is shown then. -/
structure Reports (bookmark : Bookmark) (visits : List Visit) (outcome : ReplayOutcome) (s s' : Session σ) : Prop where
  /-- Each step is in the column of its index, and its row is the one to follow in what that column showed. -/
  steps : ∀ (i : Nat) (step : ReplayStep), outcome.steps[i]? = some step → step.column = i ∧
    ∃ visit target, visits[i]? = some visit ∧ bookmark[i]? = some target ∧
      Matches target visit.shown.elements step.row step.degree
  /-- The walk stops after its steps, unless there are as many as the bookmark has elements. -/
  stoppedAt : outcome.stoppedAt =
    if outcome.steps.length = bookmark.length then none else some outcome.steps.length
  /-- No selection fails. -/
  granted : ∀ visit ∈ visits, ∀ row result, visit.call = some (row, result) →
    ∃ node, result = .ok node ∧ visit.shown.nodes[row]? = some node
  /-- An empty bookmark changes nothing. -/
  empty : bookmark = [] → s' = s
  /-- The path of a bookmark that was followed to its end are the rows that were reported. -/
  complete : bookmark ≠ [] → outcome.stoppedAt = none →
    s'.navigation.frontier.path.length = outcome.steps.length ∧
      s'.navigation.frontier.path.map some = reported outcome visits
  /-- After a stop the first row comes after these, if the column where the walk stopped has rows, none of which came
  near the element that was looked for. -/
  stopped : ∀ stop, outcome.stoppedAt = some stop → ∃ visit target column,
    visits[stop]? = some visit ∧ bookmark[stop]? = some target ∧ s'.columns[stop]? = some column ∧
    column.nodes = visit.shown.nodes ∧ (∀ e ∈ column.elements, matchDegree e target = none) ∧
    s'.navigation.frontier.path.map some = reported outcome visits ++ column.nodes.head?.toList.map some

/-- Whatever goes on beside it, a walk from column 0 reports what it did. -/
theorem Reachable.reports {w : Workspace σ} {cacheSize : Nat} (hp : w.provider.SparesHandles)
    (h : Reachable w cacheSize s) {bookmark : Bookmark} {visits : List Visit} {outcome : ReplayOutcome}
    (hwalk : Walk 0 s bookmark visits outcome s') :
  Reports bookmark visits outcome s s'
  := by
  have haccounts := hwalk.accounts hp h (.inl rfl)
  have hpath (hbookmark : bookmark ≠ []) :
      s'.navigation.frontier.path.map some = reported outcome visits ++ strayed outcome visits := by
    rw [(Reachable.isOrderly hp (h.trans hwalk.steps)).path_eq, haccounts.selected (.inl hbookmark)]
    rfl
  constructor
  case steps =>
    intro i step hstep
    obtain ⟨hcolumn, hrest⟩ := haccounts.steps i step hstep
    exact ⟨hcolumn.trans (Nat.zero_add i), hrest⟩
  case stoppedAt => rw [haccounts.stoppedAt, Nat.zero_add]
  case granted => exact haccounts.granted
  case empty =>
    rintro rfl
    cases hwalk
    rfl
  case complete =>
    intro hbookmark hstopped
    have hlength : outcome.steps.length = bookmark.length := by
      by_contra hshort
      rw [haccounts.stoppedAt, if_neg hshort] at hstopped
      cases hstopped
    have hvisits := haccounts.length
    rw [if_pos hlength] at hvisits
    have hstrayed : strayed outcome visits = [] := by
      rw [strayed, List.getElem?_eq_none (Nat.le_of_eq hvisits)]
      rfl
    have hpath := hpath hbookmark
    rw [hstrayed, List.append_nil] at hpath
    refine ⟨?_, hpath⟩
    rw [← List.length_map some, hpath, reported, List.length_zipWith, hvisits, Nat.min_self]
  case stopped =>
    intro stop hstopped
    have hlength : outcome.steps.length ≠ bookmark.length := by
      intro hlength
      rw [haccounts.stoppedAt, if_pos hlength] at hstopped
      cases hstopped
    rw [haccounts.stoppedAt, if_neg hlength, Nat.zero_add] at hstopped
    obtain rfl := Option.some.inj hstopped
    have hlt : outcome.steps.length < bookmark.length := Nat.lt_of_le_of_ne haccounts.le hlength
    have hvisits := haccounts.length
    rw [if_neg hlength] at hvisits
    have hvisit : visits[outcome.steps.length]? = some _ :=
      List.getElem?_eq_getElem (hvisits ▸ Nat.lt_succ_self outcome.steps.length)
    have htarget := List.getElem?_eq_getElem hlt
    obtain ⟨c, hc, hnodes⟩ := haccounts.kept _ _ hvisit
    rw [Nat.zero_add] at hc
    refine ⟨_, _, c, hvisit, htarget, hc, hnodes, ?_, ?_⟩
    · rw [Column.elements, hnodes]
      exact haccounts.apart _ _ hvisit htarget
    · rw [hpath (List.ne_nil_of_length_pos (Nat.zero_lt_of_lt hlt)), hnodes, strayed, hvisit]
      rfl

end Session

/-! ### Following -/

namespace Navigation

variable {n n' : Navigation σ} {column row : Nat} {target : Element}

/-- The navigation with a near miss told in its log, if there is one to tell. -/
def noted (n : Navigation σ) : Option String → Navigation σ
  | some note => { n with workspace := n.workspace.note (.info (ReplayOutcome.nearMissText note)) }
  | none => n

/-- A row that is found and can be selected is followed. -/
theorem follow_of_found {current : Column} {degree : MatchDegree} (hwaited : n.waitColumn column = n)
    (hcolumn : n.frontier.column? column = some current)
    (hfound : findMatch current.elements target = some (row, degree))
    (hrow : (n.noted degree.note?).followRow column row = (true, n')) (targets : Bookmark) :
  n.follow column (target :: targets) =
    ({ (n'.follow (column + 1) targets).1 with
      steps := ⟨column, row, degree⟩ :: (n'.follow (column + 1) targets).1.steps },
      (n'.follow (column + 1) targets).2)
  := by
  rw [follow]
  simp only [hwaited, hcolumn, hfound]
  cases hnote : degree.note? with
  | none =>
    rw [hnote, noted] at hrow
    simp only [hrow]
  | some note =>
    rw [hnote, noted] at hrow
    simp only [hrow]

end Navigation

namespace Session

variable {s s' : Session σ} {column row : Nat}

/-- Rows that were waited for are waited for no longer. -/
theorem HasWaited.waitColumn_eq (h : s.HasWaited column) :
  s.navigation.waitColumn column = s.navigation
  := by
  cases column with
  | zero => rfl
  | succ left =>
    rw [Navigation.waitColumn]
    split
    · rename_i p hp
      obtain ⟨slot, hslot, hpending⟩ := Option.bind_eq_some_iff.mp hp
      exact if_pos (h left slot p rfl hslot hpending)
    · rfl

/-- Whoever selects a row strictly leaves the rows of the next column to be seen. -/
theorem Reachable.exists_selectsStrictly {w : Workspace σ} {cacheSize : Nat} (hp : w.provider.SparesHandles)
    (h : Reachable w cacheSize s) {current : Column} {node : Node} (hcurrent : s.columns[column]? = some current)
    (hnode : current.nodes[row]? = some node) :
  ∃ s', s.navigation.followRow column row = (true, s'.navigation) ∧ SelectsStrictly s column row (.ok node) s' ∧
    s'.HasWaited (column + 1)
  := by
  obtain ⟨slot, hslot, rfl⟩ := getElem?_columns.mp hcurrent
  obtain ⟨chosen, hchoose, hslots, -⟩ := Navigation.choose_of_row hslot hnode
  have hselects := Reachable.selects hp h true hslot hnode
  obtain ⟨run, s', hran, hnavigation⟩ := hselects.works
  have hmeanwhile := hran.meanwhile
  have hfinished := (hselects.atOnce (.inl rfl)).1
  rw [← hnavigation] at hfinished
  refine ⟨s', ?_, .granted node _ _ chosen s' hchoose hmeanwhile hfinished, ?_⟩
  · have hreturns := hselects.returns
    rw [hnavigation, Navigation.followRow, Navigation.selectStrict]
    generalize s.navigation.selectWith true column row = r at hreturns
    obtain ⟨result, n⟩ := r
    obtain rfl : result = .ok node := hreturns
    rfl
  · rintro left waiting p ⟨⟩ hwaiting hpending
    have hselected : Reachable w cacheSize (s.perform (.select column row)) := .tail h (.command s _)
    have horderly := Reachable.isOrderly hp (hselected.meanwhile hmeanwhile)
    have hle : column ≤ s.standing.length := by
      have hlt := (List.getElem?_eq_some_iff.mp hslot).1
      rw [(Reachable.isOrderly hp h).orderly.lined.length] at hlt
      exact Nat.lt_succ_iff.mp hlt
    -- What the slot of the column waits for is the selection that was just made.
    have hstanding : s'.standing[column]? = some ⟨.root s.searches.signals.next, node⟩ := by
      rw [(Reachable.showsSelection hp h hslot hnode hran).2]
      exact getElem?_cut_add _ hle 0
    rw [(horderly.orderly.lined.holds hstanding hwaiting).pending] at hpending
    obtain rfl := Option.some.inj hpending
    exact hfinished

/-- Nothing is waited for in column 0. -/
theorem hasWaited_zero (s : Session σ) :
  s.HasWaited 0
  := by
  intro left slot p h
  cases h

/-- A near miss is told in the log. -/
theorem exists_noted (s : Session σ) (note? : Option String) :
  ∃ s₁, Meanwhile s s₁ ∧ s₁.columns = s.columns ∧ s₁.navigation = s.navigation.noted note?
  := by
  cases note? with
  | none => exact ⟨s, .refl, rfl, rfl⟩
  | some note =>
    exact ⟨_, .single (.elsewhere s (s.navigation.workspace.note _) rfl (.refl s.searches)), rfl, rfl⟩

/-- Following a bookmark is a walk. -/
theorem Reachable.exists_walk {w : Workspace σ} {cacheSize : Nat} (hp : w.provider.SparesHandles)
    (h : Reachable w cacheSize s) (hwaited : s.HasWaited column) (hlt : column < s.columns.length)
    (bookmark : Bookmark) :
  ∃ visits s', Walk column s bookmark visits (s.navigation.follow column bookmark).1 s' ∧
    s'.navigation = (s.navigation.follow column bookmark).2
  := by
  induction bookmark generalizing s column with
  | nil => exact ⟨[], s, .done column s, rfl⟩
  | cons target targets ih =>
    obtain ⟨current, hcurrent⟩ : ∃ current, s.columns[column]? = some current := ⟨_, List.getElem?_eq_getElem hlt⟩
    have hcolumn : s.navigation.frontier.column? column = some current := by
      rw [← hcurrent, columns, Frontier.columns, List.getElem?_map]
      rfl
    cases hfound : findMatch current.elements target with
    | some found =>
      obtain ⟨row, degree⟩ := found
      obtain ⟨node, hnode⟩ := exists_node_of_matches (matches_of_findMatch hfound)
      obtain ⟨s₁, hmeanwhile, hcolumns₁, hnoted⟩ := s.exists_noted degree.note?
      have hreachable := h.meanwhile hmeanwhile
      obtain ⟨s₂, hrow, hselects, hwaited₂⟩ :=
        Reachable.exists_selectsStrictly hp hreachable (hcolumns₁ ▸ hcurrent) hnode
      obtain ⟨-, hreachable₂, right, hcolumns₂⟩ :=
        Reachable.selectsStrictly hp hreachable (hcolumns₁ ▸ hcurrent) hnode hselects
      have hlt₂ : column + 1 < s₂.columns.length := by
        rw [hcolumns₂, length_cut _ (Nat.le_of_lt (hcolumns₁ ▸ hlt))]
        exact Nat.lt_succ_self _
      obtain ⟨visits, s', hwalk, hnavigation⟩ := ih hreachable₂ hwaited₂ hlt₂
      rw [hnoted] at hrow
      rw [Navigation.follow_of_found hwaited.waitColumn_eq hcolumn hfound hrow]
      exact ⟨_, s', .followed .refl hwaited hcurrent hfound hmeanwhile hselects hwalk, hnavigation⟩
    | none =>
      rw [Navigation.follow]
      simp only [hwaited.waitColumn_eq, hcolumn, hfound]
      cases hnodes : current.nodes with
      | nil => exact ⟨_, s, .stopped .refl hwaited hcurrent hfound hnodes, rfl⟩
      | cons first rest =>
        have hnode : current.nodes[0]? = some first := by rw [hnodes, List.getElem?_cons_zero]
        obtain ⟨s₂, hrow, hselects, -⟩ := Reachable.exists_selectsStrictly hp h hcurrent hnode
        have hnonempty : current.nodes ≠ [] := by
          rw [hnodes]
          exact List.cons_ne_nil first rest
        refine ⟨_, s₂, .strayed .refl hwaited hcurrent hfound hnonempty .refl hselects, ?_⟩
        simp only [hrow, List.isEmpty_cons, Bool.false_eq_true, if_false]

/-- In every session that can come about, whoever follows a bookmark walks along it, and every walk, whatever goes on
beside it, reports what it did. -/
theorem Reachable.follows_bookmark {w : Workspace σ} {cacheSize : Nat} (hp : w.provider.SparesHandles)
    (h : Reachable w cacheSize s) (bookmark : Bookmark) :
  (∃ visits s', Walk 0 s bookmark visits (s.navigation.openBookmark bookmark).1 s' ∧
      s'.navigation = (s.navigation.openBookmark bookmark).2) ∧
    ∀ visits outcome s', Walk 0 s bookmark visits outcome s' → Reports bookmark visits outcome s s'
  := by
  have hnonempty := (showsExpansions_of_isOrderly (Reachable.isOrderly hp h)).nonempty
  exact ⟨Reachable.exists_walk hp h s.hasWaited_zero hnonempty bookmark, fun _ _ _ => Reachable.reports hp h⟩

/-- The group and its member are followed, and the member has no neighbours. -/
theorem Reachable.follows_bookmark_of_group :
  ∃ s visits s', Reachable blank 1 s ∧
    Walk 0 s [group.element, .organizer "member", .organizer "gone"] visits
      ⟨[⟨0, 0, .exact⟩, ⟨1, 0, .exact⟩], some 2⟩ s' ∧
    Reports [group.element, .organizer "member", .organizer "gone"] visits
      ⟨[⟨0, 0, .exact⟩, ⟨1, 0, .exact⟩], some 2⟩ s s'
  := by
  have hrooted : Reachable blank 1 ((ofWorkspace blank 1).perform (.setRoots [group])) := .single (.command _ _)
  obtain ⟨⟨visits, s', hwalk, -⟩, hreports⟩ := Reachable.follows_bookmark Scripted.provider_sparesHandles hrooted
    [group.element, .organizer "member", .organizer "gone"]
  have houtcome : (((ofWorkspace blank 1).perform (.setRoots [group])).navigation.openBookmark
      [group.element, .organizer "member", .organizer "gone"]).1 = ⟨[⟨0, 0, .exact⟩, ⟨1, 0, .exact⟩], some 2⟩ := by
    decide +kernel
  rw [houtcome] at hwalk
  exact ⟨_, visits, s', hrooted, hwalk, hreports _ _ _ hwalk⟩

end Session

end CallGraph
