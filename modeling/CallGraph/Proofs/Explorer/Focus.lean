import CallGraph.Proofs.Explorer.Journeys
import CallGraph.Proofs.Frontier.Selecting

/-!
# The column in focus

The focus is kept apart from the columns.  A selection moves it to the column of the row that is selected, and whoever
shows other roots takes it away, so it is on a column that exists.  Only when the selected root is removed together
with its module or script, all columns but the first go and the focus stays where it is: if it was right of column 0,
it is then on a column that does not exist, until a row is selected or other roots are shown.
-/

namespace CallGraph

variable {σ δ : Type}

namespace Frontier

/-- The focused column, if there is one, exists. -/
def HasFocus (f : Frontier) : Prop :=
  ∀ column ∈ f.focus, column < f.columns.length

instance (f : Frontier) : Decidable f.HasFocus :=
  inferInstanceAs (Decidable (∀ column ∈ f.focus, column < f.columns.length))

/-- The roots stand alone, and none of them is selected. -/
def IsBare (f : Frontier) : Prop :=
  f.columns.map Column.selected = [none]

/-- Neither the focus, nor the number of the columns, nor the row selected in column 0 changes. -/
structure KeepsPlace (f f' : Frontier) : Prop where
  focus : f'.focus = f.focus
  length : f'.columns.length = f.columns.length
  selected : f'.columns.head?.map Column.selected = f.columns.head?.map Column.selected

namespace KeepsPlace

variable {f f' f'' : Frontier}

theorem refl (f : Frontier) :
  f.KeepsPlace f
  :=
  ⟨rfl, rfl, rfl⟩

theorem trans (h : f.KeepsPlace f') (h' : f'.KeepsPlace f'') :
  f.KeepsPlace f''
  :=
  ⟨h'.focus.trans h.focus, h'.length.trans h.length, h'.selected.trans h.selected⟩

/-- The slots are not touched. -/
theorem ofSlots (hfocus : f'.focus = f.focus) (hslots : f'.slots = f.slots) :
  f.KeepsPlace f'
  := by
  have hcolumns : f'.columns = f.columns := congrArg (List.map _) hslots
  exact ⟨hfocus, congrArg List.length hcolumns, congrArg (fun columns => columns.head?.map Column.selected) hcolumns⟩

theorem hasFocus (h : f.KeepsPlace f') (hf : f.HasFocus) :
  f'.HasFocus
  := by
  unfold HasFocus
  rw [h.focus, h.length]
  exact hf

theorem isBare (h : f.KeepsPlace f') (hf : f.IsBare) :
  f'.IsBare
  := by
  have hlength := congrArg List.length hf
  rw [List.length_map, ← h.length] at hlength
  obtain ⟨column, hcolumn⟩ := List.length_eq_one_iff.mp hlength
  have hselected := h.selected
  rw [hcolumn, ← List.head?_map, ← List.head?_map, hf] at hselected
  rw [IsBare, hcolumn]
  exact congrArg Option.toList hselected

end KeepsPlace

variable {f : Frontier} {c : Searches} {nodes : List Node}

/-- The selected root is removed: the roots stand alone, and the focus stays where it is. -/
theorem isBare_removeRoots (h : ∃ root ∈ f.path.head?, isAmong nodes root = true) :
  (f.removeRoots nodes c).1.IsBare ∧ (f.removeRoots nodes c).1.focus = f.focus
  := by
  obtain ⟨selected, hselected, hamong⟩ := h
  unfold removeRoots
  rw [path] at hselected
  cases hslots : f.slots with
  | nil =>
    rw [hslots] at hselected
    cases hselected
  | cons root rest =>
    rw [hslots, selections] at hselected
    dsimp only
    cases hroot : root.column.selectedNode? with
    | none =>
      rw [hroot] at hselected
      cases hselected
    | some node =>
      rw [hroot] at hselected
      cases hselected
      dsimp only
      rw [if_pos hamong]
      exact ⟨rfl, rfl⟩

/-- Roots are removed and the selected one is not among them: as many columns are left, in the same focus, and what was
not selected still is not. -/
theorem removeRoots_of_not (h : ¬ ∃ root ∈ f.path.head?, isAmong nodes root = true) :
  (f.removeRoots nodes c).1.focus = f.focus ∧
    (f.removeRoots nodes c).1.columns.length = f.columns.length ∧
    (f.IsBare → (f.removeRoots nodes c).1.IsBare)
  := by
  unfold removeRoots
  rw [path] at h
  cases hslots : f.slots with
  | nil => exact ⟨rfl, rfl, id⟩
  | cons root rest =>
    have hcolumns : f.columns = root.column :: rest.map (·.column) := by rw [columns, hslots]; rfl
    rw [hslots, selections] at h
    dsimp only
    cases hroot : root.column.selectedNode? with
    | none =>
      refine ⟨rfl, ?_, fun hbare => ?_⟩
      · rw [hcolumns]
        rfl
      · rw [IsBare, hcolumns] at hbare
        exact hbare
    | some node =>
      rw [hroot] at h
      dsimp only
      rw [if_neg fun hamong => h ⟨node, rfl, hamong⟩]
      refine ⟨rfl, ?_, fun hbare => ?_⟩
      · rw [hcolumns]
        rfl
      · rw [IsBare, hcolumns] at hbare
        rw [Column.selectedNode?, (List.cons.inj hbare).1] at hroot
        cases hroot

theorem keepsPlace_addRoots (f : Frontier) (nodes : List Node) :
  f.KeepsPlace (f.addRoots nodes)
  := by
  refine ⟨rfl, ?_, ?_⟩
  · simp only [addRoots, columns, List.length_map, List.length_modifyHead]
  · simp only [addRoots, columns]
    cases f.slots with
    | nil => rfl
    | cons root rest => rfl

/-- The rows that an expansion found go into a column right of another one. -/
theorem keepsPlace_publish (f : Frontier) (c : Searches) (handle : Token) (column : Nat) (nodes : List Node) :
  f.KeepsPlace (f.publish c handle column nodes)
  := by
  unfold publish
  split
  case isTrue => exact .ofSlots rfl rfl
  case isFalse =>
    refine ⟨rfl, ?_, ?_⟩
    · simp only [columns, List.length_map, List.length_modify]
    · simp only [columns]
      cases f.slots with
      | nil => rfl
      | cons root rest => rfl

end Frontier

namespace Navigation

variable {n n' n'' : Navigation σ}

/-! ### What leaves the focus where it is -/

theorem keepsPlace_runExpansion (n : Navigation σ) (handle : Token) (e : Expansion) :
  n.frontier.KeepsPlace (n.runExpansion handle e).frontier
  := by
  unfold runExpansion
  split
  · exact .refl _
  · split
    · exact n.frontier.keepsPlace_publish _ handle e.column _
    · exact .refl _

theorem keepsPlace_stepExpansion (n : Navigation σ) :
  n.frontier.KeepsPlace n.stepExpansion.frontier
  := by
  unfold stepExpansion
  split
  · exact .ofSlots rfl rfl
  · rename_i handle e _
    split
    · exact (n.frontier.keepsPlace_publish _ handle e.column _).trans (.ofSlots rfl rfl)
    · exact .ofSlots rfl rfl
    · exact .ofSlots rfl rfl

/-- No worker moves the focus, takes a column away or selects a root. -/
theorem Labour.keepsPlace (h : Labour n n') :
  n.frontier.KeepsPlace n'.frontier
  := by
  have hfocus := h.focus
  cases h with
  | expansions => exact n.keepsPlace_stepExpansion
  | renders => exact .ofSlots hfocus (Shows.stepRender n).slots
  | elsewhere workspace => exact .refl _

theorem keepsPlace_workExpansions (n : Navigation σ) :
  n.frontier.KeepsPlace n.workExpansions.frontier
  := by
  unfold workExpansions
  generalize 4 * n.frontier.expansions.waiting.length + 3 = steps
  induction steps with
  | zero => exact .refl _
  | succ steps ih => exact ih.trans (keepsPlace_stepExpansion _)

theorem keepsPlace_submit (n : Navigation σ) (handle : Token) (e : Expansion) :
  n.frontier.KeepsPlace (n.submit handle e).frontier
  := by
  unfold submit
  dsimp only
  split
  · exact .ofSlots rfl rfl
  · have hconfig : n.frontier.KeepsPlace (⟨n.workspace.getConfig.2, n.frontier⟩ : Navigation σ).frontier := .refl _
    exact hconfig.trans (keepsPlace_runExpansion _ handle e)

theorem keepsPlace_waitColumn (n : Navigation σ) (column : Nat) :
  n.frontier.KeepsPlace (n.waitColumn column).frontier
  := by
  cases column with
  | zero => exact .refl _
  | succ left =>
    unfold waitColumn
    dsimp only
    split
    · split
      · exact .refl _
      · exact n.keepsPlace_workExpansions
    · exact .refl _

/-! ### What moves the focus -/

/-- The focus stays where it is, or is on a column that exists. -/
def Refocuses (n n' : Navigation σ) : Prop :=
  n.frontier.KeepsPlace n'.frontier ∨ n'.frontier.HasFocus

namespace Refocuses

theorem refl (n : Navigation σ) :
  n.Refocuses n
  :=
  .inl (.refl _)

theorem trans (h : n.Refocuses n') (h' : n'.Refocuses n'') :
  n.Refocuses n''
  := by
  rcases h' with hkeeps' | hfocus'
  · rcases h with hkeeps | hfocus
    · exact .inl (hkeeps.trans hkeeps')
    · exact .inr (hkeeps'.hasFocus hfocus)
  · exact .inr hfocus'

theorem hasFocus (h : n.Refocuses n') (hn : n.frontier.HasFocus) :
  n'.frontier.HasFocus
  := by
  rcases h with hkeeps | hfocus
  · exact hkeeps.hasFocus hn
  · exact hfocus

end Refocuses

/-- A column that exists is put into focus. -/
theorem hasFocus_focus {column : Nat} (h : column < n.frontier.columns.length) :
  (n.focus column).frontier.HasFocus
  := by
  have hcolumns : (n.focus column).frontier.columns = n.frontier.columns :=
    congrArg (List.map _) (Shows.focus n column).slots
  intro focused hfocused
  rw [focus_focus] at hfocused
  cases hfocused
  rw [hcolumns]
  exact h

/-- The column of a row that is selected comes into focus; a row that is not there changes nothing. -/
theorem refocuses_selectWith (strict : Bool) (n : Navigation σ) (column row : Nat) :
  n.Refocuses (n.selectWith strict column row).2
  := by
  unfold selectWith
  cases hslot : n.frontier.slots[column]? with
  | none =>
    rw [choose_of_noColumn (by rw [Frontier.columns, List.getElem?_map, hslot]; rfl)]
    exact .refl n
  | some slot =>
    cases hnode : slot.column.nodes[row]? with
    | none =>
      rw [choose_of_noRow (by rw [Frontier.columns, List.getElem?_map, hslot]; rfl) hnode]
      exact .refl n
    | some node =>
      obtain ⟨chosen, hchoose, hslots, -⟩ := choose_of_row hslot hnode
      rw [hchoose]
      right
      have hlt : column < n.frontier.slots.length := (List.getElem?_eq_some_iff.mp hslot).1
      have hchosen : column < chosen.frontier.columns.length := by
        rw [Frontier.columns, List.length_map, hslots, List.length_append, List.length_take]
        simp only [List.length_cons, List.length_nil]
        omega
      have hfocus := hasFocus_focus hchosen
      dsimp only
      split
      · exact (keepsPlace_runExpansion _ _ _).hasFocus hfocus
      · exact (keepsPlace_submit _ _ _).hasFocus hfocus

theorem hasFocus_setAutoHighlight {n : Navigation σ} (h : n.frontier.HasFocus) (enabled : Bool) :
  (n.setAutoHighlight enabled).frontier.HasFocus
  := by
  unfold setAutoHighlight
  dsimp only
  split
  · rename_i column hfocus
    exact hasFocus_focus (h column hfocus)
  · exact h

theorem columns_setAutoHighlight (n : Navigation σ) (enabled : Bool) :
  (n.setAutoHighlight enabled).frontier.columns = n.frontier.columns
  := by
  unfold setAutoHighlight
  dsimp only
  split
  · exact congrArg (List.map _) (Shows.focus _ _).slots
  · rfl

theorem refocuses_followRow (n : Navigation σ) (column row : Nat) :
  n.Refocuses (n.followRow column row).2
  := by
  have hselect := refocuses_selectWith true n column row
  unfold followRow selectStrict
  generalize n.selectWith true column row = r at hselect
  obtain ⟨result, n'⟩ := r
  cases result with
  | ok node => exact hselect
  | error e => exact hselect.trans (.inl (.refl _))

/-- Whatever elements are followed, the focus stays where it is or comes to a column that exists. -/
theorem refocuses_follow (n : Navigation σ) (column : Nat) (targets : List Element) :
  n.Refocuses (n.follow column targets).2
  := by
  induction targets generalizing n column with
  | nil => exact .refl n
  | cons target targets ih =>
    rw [follow]
    have hwait : n.Refocuses (n.waitColumn column) := .inl (n.keepsPlace_waitColumn column)
    apply hwait.trans
    dsimp only
    split
    · exact .refl _
    · rename_i current _
      split
      · rename_i row degree _
        have hsame {n : Navigation σ} {w : Workspace σ} : n.Refocuses { n with workspace := w } := .inl (.refl _)
        cases degree.note? <;>
        · dsimp only
          split
          case h_1 m heq =>
            have hrow := congrArg Prod.snd heq ▸ refocuses_followRow _ column row
            exact hsame.trans hrow
          case h_2 m heq =>
            have hrow := congrArg Prod.snd heq ▸ refocuses_followRow _ column row
            exact hsame.trans (hrow.trans (ih m (column + 1)))
      · split
        · exact .refl _
        · exact refocuses_followRow _ column 0

end Navigation

namespace Project

/-- A change of the tracked modules or scripts by which roots go is one. -/
theorem changed_of_stale [SettingsStore δ] {p q : Project δ} {category : Category} {value : Json} {w w' : Workspace σ}
    {change : SettingsChange} (hcategory : category = .modules ∨ category = .scripts)
    (h : p.setSettings category value w = .ok (change, q, w')) (hstale : change.stale ≠ []) :
  change.changed = true
  := by
  have hchanged : change.changed = (!change.stale.isEmpty || !change.additional.isEmpty) := by
    rw [setSettings_eq] at h
    rcases hcategory with rfl | rfl
    · cases hnew : (Category.modules.decodeValue value : Except SettingsError (List String)) with
      | error e =>
        rw [Replacement.ofValue, hnew] at h
        cases h
      | ok new =>
        rw [Replacement.ofValue, hnew] at h
        cases h
        rfl
    · cases hnew : (Category.scripts.decodeValue value : Except SettingsError (List Path)) with
      | error e =>
        rw [Replacement.ofValue, hnew] at h
        cases h
      | ok new =>
        rw [Replacement.ofValue, hnew] at h
        cases h
        rfl
  rw [hchanged, List.isEmpty_eq_false_iff.mpr hstale]
  rfl

end Project

namespace Explorer

/-- Once other roots are shown and a walk is followed from them, the focus is on a column that exists. -/
theorem hasFocus_restore (x : Explorer σ δ) (walk : List Element) :
  (x.restore walk).2.navigation.frontier.HasFocus
  := by
  have hroots : (x.navigation.setRoots x.project.rootNodes).frontier.HasFocus := nofun
  exact (Navigation.refocuses_follow _ 0 walk).hasFocus hroots

theorem refocuses_openBookmark (x : Explorer σ δ) (index : Nat) :
  x.navigation.Refocuses (x.openBookmark index).2.navigation
  := by
  unfold openBookmark
  split
  · exact .refl _
  · exact Navigation.refocuses_follow _ 0 _

variable [SettingsStore δ] {x : Explorer σ δ}

/-- The tracked modules or scripts change so that the selected root is removed, while the focus is right of column 0. -/
def Strands (x : Explorer σ δ) : Move → Prop
  | .operate (.apply category value) =>
    (category = .modules ∨ category = .scripts) ∧ (∃ column ∈ x.navigation.frontier.focus, 0 < column) ∧
      ∃ change p w, x.project.setSettings category value x.workspace = .ok (change, p, w) ∧
        ∃ root ∈ x.navigation.frontier.path.head?, Frontier.isAmong change.stale root = true
  | _ => False

/-- Explorers to which moves of some kind lead from any project, while the workers go on, selected rows are shown or
not, and whatever else happens to the workspace. -/
inductive Navigated (may : Explorer σ δ → Move → Prop) : Explorer σ δ → Prop where
  | start (project : Project δ) (w : Workspace σ) : Navigated may (.ofProject project w)
  | move {x : Explorer σ δ} (h : Navigated may x) (m : Move) (allowed : may x m) : Navigated may (x.move m)
  | autoHighlight {x : Explorer σ δ} (h : Navigated may x) (enabled : Bool) :
      Navigated may { x with navigation := x.navigation.setAutoHighlight enabled }
  | labour {x : Explorer σ δ} (h : Navigated may x) {n : Navigation σ} (labour : x.navigation.Labour n) :
      Navigated may { x with navigation := n }

/-! ### One move -/

/-- The columns after the tracked modules or scripts changed. -/
theorem frontier_applySettings {category : Category} {value : Json} {change : SettingsChange} {p : Project δ}
    {w : Workspace σ} (hcategory : category = .modules ∨ category = .scripts)
    (hset : x.project.setSettings category value x.workspace = .ok (change, p, w)) (hchanged : change.changed = true) :
  ∃ c, (x.applySettings category value).2.navigation.frontier =
    (x.navigation.frontier.removeRoots change.stale c).1.addRoots change.additional
  := by
  unfold applySettings
  rw [hset]
  dsimp only
  unfold showChange
  rw [if_pos hchanged]
  rcases hcategory with rfl | rfl
  · exact ⟨_, rfl⟩
  · exact ⟨_, rfl⟩

/-- After other settings changed, the columns are as they were, or else the focus is on one that exists. -/
theorem cases_applySettings (x : Explorer σ δ) (category : Category) (value : Json) :
  (x.applySettings category value).2.navigation.frontier.HasFocus ∨
    (x.applySettings category value).2.navigation.frontier = x.navigation.frontier ∨
    (category = .modules ∨ category = .scripts) ∧
      ∃ change p w, x.project.setSettings category value x.workspace = .ok (change, p, w) ∧ change.changed = true
  := by
  by_cases hroots : (category = .modules ∨ category = .scripts) ∧
      ∃ change p w, x.project.setSettings category value x.workspace = .ok (change, p, w) ∧ change.changed = true
  · exact .inr (.inr hroots)
  unfold applySettings
  cases hset : x.project.setSettings category value x.workspace with
  | error e => exact .inr (.inl rfl)
  | ok replaced =>
    obtain ⟨change, p, w⟩ := replaced
    rw [hset] at hroots
    dsimp only
    unfold showChange
    split
    case isFalse => exact .inr (.inl rfl)
    case isTrue hchanged =>
      have hother : ¬ (category = .modules ∨ category = .scripts) :=
        fun hcategory => hroots ⟨hcategory, change, p, w, rfl, hchanged⟩
      cases category with
      | sysPath =>
        left
        dsimp only
        split
        · exact hasFocus_restore _ _
        · exact hasFocus_restore _ _
      | modules => exact absurd (.inl rfl) hother
      | scripts => exact absurd (.inr rfl) hother
      | _ => exact .inr (.inl rfl)

/-- No operation on bookmarks touches the columns. -/
theorem frontier_addBookmark (x : Explorer σ δ) :
  x.addBookmark.2.navigation.frontier = x.navigation.frontier
  := by
  unfold addBookmark
  dsimp only
  split
  · rfl
  · rfl

theorem frontier_deleteBookmark (x : Explorer σ δ) (index : Nat) :
  (x.deleteBookmark index).2.navigation.frontier = x.navigation.frontier
  := by
  unfold deleteBookmark
  split
  · rfl
  · rfl

/-- If a move strands the focus, the roots stand alone after it, and the focus is where it was, right of them. -/
theorem isBare_of_strands {m : Move} (h : x.Strands m) :
  (x.move m).navigation.frontier.IsBare ∧ (x.move m).navigation.frontier.focus = x.navigation.frontier.focus ∧
    ∃ column ∈ x.navigation.frontier.focus, 0 < column
  := by
  cases m with
  | select | openBookmark | reload => exact h.elim
  | operate op =>
    cases op with
    | addBookmark | deleteBookmark => exact h.elim
    | apply category value =>
      obtain ⟨hcategory, hright, change, p, w, hset, root, hroot, hamong⟩ := h
      have hstale : change.stale ≠ [] := by
        intro hnil
        rw [hnil] at hamong
        cases hamong
      obtain ⟨c, hfrontier⟩ := frontier_applySettings hcategory hset (Project.changed_of_stale hcategory hset hstale)
      obtain ⟨hbare, hfocus⟩ := Frontier.isBare_removeRoots (c := c) ⟨root, hroot, hamong⟩
      have hadded := Frontier.keepsPlace_addRoots (x.navigation.frontier.removeRoots change.stale c).1 change.additional
      rw [move, operate, hfrontier]
      exact ⟨hadded.isBare hbare, hadded.focus.trans hfocus, hright⟩

/-- Any other move leaves the focus on a column that exists, and as long as the roots stand alone it leaves them so
unless it puts the focus on a column that exists. -/
theorem move_of_not_strands {m : Move} (h : ¬ x.Strands m) :
  (x.navigation.frontier.HasFocus → (x.move m).navigation.frontier.HasFocus) ∧
    (x.navigation.frontier.IsBare →
      (x.move m).navigation.frontier.HasFocus ∨ (x.move m).navigation.frontier.IsBare)
  := by
  have hsame {f' : Frontier} (hf : f' = x.navigation.frontier) :
      (x.navigation.frontier.HasFocus → f'.HasFocus) ∧ (x.navigation.frontier.IsBare → f'.HasFocus ∨ f'.IsBare) :=
    hf ▸ ⟨id, .inr⟩
  have hmoved {n : Navigation σ} (hn : x.navigation.Refocuses n) : (x.navigation.frontier.HasFocus →
      n.frontier.HasFocus) ∧ (x.navigation.frontier.IsBare → n.frontier.HasFocus ∨ n.frontier.IsBare) :=
    ⟨hn.hasFocus, fun hbare => hn.symm.imp_right (·.isBare hbare)⟩
  cases m with
  | select strict column row => exact hmoved (Navigation.refocuses_selectWith strict _ column row)
  | openBookmark index => exact hmoved (x.refocuses_openBookmark index)
  | reload => exact ⟨fun _ => hasFocus_restore _ _, fun _ => .inl (hasFocus_restore _ _)⟩
  | operate op =>
    cases op with
    | addBookmark => exact hsame x.frontier_addBookmark
    | deleteBookmark index => exact hsame (x.frontier_deleteBookmark index)
    | apply category value =>
      rcases x.cases_applySettings category value with hfocus | hfrontier | ⟨hcategory, change, p, w, hset, hchanged⟩
      · exact ⟨fun _ => hfocus, fun _ => .inl hfocus⟩
      · exact hsame hfrontier
      · obtain ⟨c, hfrontier⟩ := frontier_applySettings hcategory hset hchanged
        have hadded := Frontier.keepsPlace_addRoots (x.navigation.frontier.removeRoots change.stale c).1
          change.additional
        rw [move, operate, hfrontier]
        by_cases hselected : ∃ root ∈ x.navigation.frontier.path.head?, Frontier.isAmong change.stale root = true
        · obtain ⟨hbare, hfocus⟩ := Frontier.isBare_removeRoots (c := c) hselected
          have hroots := hadded.isBare hbare
          refine ⟨fun _ column hcolumn => ?_, fun _ => .inr hroots⟩
          -- The focus was not right of column 0, so it still is on the roots.
          rw [hadded.focus, hfocus] at hcolumn
          have hzero : ¬ 0 < column :=
            fun hpositive => h ⟨hcategory, ⟨column, hcolumn, hpositive⟩, change, p, w, hset, hselected⟩
          have hlength := congrArg List.length hroots
          rw [List.length_map] at hlength
          rw [hlength]
          exact Nat.lt_succ_of_le (Nat.le_of_not_lt hzero)
        · obtain ⟨hfocus, hlength, hbare⟩ := Frontier.removeRoots_of_not (c := c) hselected
          refine ⟨fun hhas => hadded.hasFocus ?_, fun h => .inr (hadded.isBare (hbare h))⟩
          unfold Frontier.HasFocus
          rw [hfocus, hlength]
          exact hhas

/-- A focus that is on a column that exists is so after a move exactly if the move does not strand it. -/
theorem hasFocus_move_iff (h : x.navigation.frontier.HasFocus) (m : Move) :
  (x.move m).navigation.frontier.HasFocus ↔ ¬ x.Strands m
  := by
  refine ⟨fun hhas hstrands => ?_, fun hnot => (move_of_not_strands hnot).1 h⟩
  obtain ⟨hbare, hfocus, column, hcolumn, hpositive⟩ := isBare_of_strands hstrands
  have hlength := congrArg List.length hbare
  rw [List.length_map] at hlength
  have hlt := hhas column (hfocus ▸ hcolumn)
  rw [hlength] at hlt
  exact absurd hpositive (Nat.not_lt.mpr (Nat.le_of_lt_succ hlt))

/-! ### Whole runs -/

/-- Wherever moves lead, the focus is on a column that exists, or the roots stand alone and none is selected. -/
theorem Navigated.hasFocus_or_isBare {may : Explorer σ δ → Move → Prop} (h : x.Navigated may) :
  x.navigation.frontier.HasFocus ∨ x.navigation.frontier.IsBare
  := by
  induction h with
  | start project w => exact .inl nofun
  | @move x h m allowed ih =>
    by_cases hstrands : x.Strands m
    · exact .inr (isBare_of_strands hstrands).1
    · obtain ⟨hfocus, hbare⟩ := move_of_not_strands hstrands
      rcases ih with ih | ih
      · exact .inl (hfocus ih)
      · exact hbare ih
  | @autoHighlight x h enabled ih =>
    rcases ih with ih | ih
    · exact .inl (Navigation.hasFocus_setAutoHighlight ih enabled)
    · right
      unfold Frontier.IsBare
      rw [Navigation.columns_setAutoHighlight]
      exact ih
  | labour h labour ih =>
    rcases ih with ih | ih
    · exact .inl (labour.keepsPlace.hasFocus ih)
    · exact .inr (labour.keepsPlace.isBare ih)

/-- Wherever moves lead that strand no focus, the focus is on a column that exists. -/
theorem Navigated.hasFocus {may : Explorer σ δ → Move → Prop} (h : x.Navigated may)
    (hmay : ∀ y m, may y m → ¬ y.Strands m) :
  x.navigation.frontier.HasFocus
  := by
  induction h with
  | start project w => exact nofun
  | @move x h m allowed ih => exact (hasFocus_move_iff ih m).mpr (hmay x m allowed)
  | autoHighlight h enabled ih => exact Navigation.hasFocus_setAutoHighlight ih enabled
  | labour h labour ih => exact labour.keepsPlace.hasFocus ih

/-- The focused column exists wherever moves lead of which none removes the selected root while the focus is right of
column 0.  In general it exists unless the roots stand alone and none is selected; and if it exists, it still does after
a move exactly if the move is none of these. -/
theorem Navigated.keepsFocus {may : Explorer σ δ → Move → Prop} (h : x.Navigated may) :
  ((∀ y m, may y m → ¬ y.Strands m) → x.navigation.frontier.HasFocus) ∧
    (x.navigation.frontier.HasFocus ∨ x.navigation.frontier.IsBare) ∧
    ∀ m, x.navigation.frontier.HasFocus → ((x.move m).navigation.frontier.HasFocus ↔ ¬ x.Strands m)
  :=
  ⟨h.hasFocus, h.hasFocus_or_isBare, fun m hfocus => hasFocus_move_iff hfocus m⟩

/-- The module is dropped in front of the script whose call is in focus. -/
def shortened : Explorer Scripted MemoryStore :=
  walked.move (.operate (.apply .modules (.array [])))

/-- Then the script is dropped, too. -/
def dropped : Explorer Scripted MemoryStore :=
  shortened.move (.operate (.apply .scripts (.array [])))

/-- As long as the script is there, so is the column of its call. -/
theorem Navigated.keepsFocus_shortened :
  shortened.Navigated (fun x m => ¬ x.Strands m) ∧ shortened.navigation.frontier.HasFocus ∧
    shortened.navigation.frontier.focus = some 1 ∧ shortened.navigation.frontier.columns.length = 3
  := by
  have hmove {x : Explorer Scripted MemoryStore} (h : x.Navigated fun x m => ¬ x.Strands m)
      (hx : x.navigation.frontier.HasFocus) (m : Move) (hfocus : (x.move m).navigation.frontier.HasFocus) :
      (x.move m).Navigated fun x m => ¬ x.Strands m :=
    h.move m ((hasFocus_move_iff hx m).mp hfocus)
  have hstart : unscoped.Navigated fun x m => ¬ x.Strands m := .start _ _
  have hmodule := hmove hstart (by decide) (.operate (.apply .modules (.array [.text "m"]))) (by decide)
  have hscript := hmove hmodule (by decide) (.operate (.apply .scripts (.array [.text "/tmp/w/link.py"]))) (by decide)
  have hselected := hmove hscript (by decide) (.select false 0 1) (by decide)
  have hwalked := hmove hselected (by decide) (.select false 1 0) (by decide)
  have hshortened : shortened.Navigated fun x m => ¬ x.Strands m := hmove hwalked (by decide) _ (by decide)
  exact ⟨hshortened, hshortened.keepsFocus.1 fun _ _ => id, by decide, by decide⟩

/-- When the script is dropped whose call is in focus, its column is gone, but the focus is still on it. -/
theorem Navigated.not_keepsFocus_dropped :
  dropped.Navigated (fun _ _ => True) ∧ dropped.navigation.frontier.focus = some 1 ∧
    dropped.navigation.frontier.columns.length = 1 ∧ ¬ dropped.navigation.frontier.HasFocus
  := by
  have hstart : unscoped.Navigated fun _ _ => True := .start _ _
  have hscript := (hstart.move (.operate (.apply .modules (.array [.text "m"]))) trivial).move
    (.operate (.apply .scripts (.array [.text "/tmp/w/link.py"]))) trivial
  have hwalked := (hscript.move (.select false 0 1) trivial).move (.select false 1 0) trivial
  have hdropped := (hwalked.move (.operate (.apply .modules (.array []))) trivial).move
    (.operate (.apply .scripts (.array []))) trivial
  exact ⟨hdropped, by decide, by decide, by decide⟩

end Explorer

end CallGraph
