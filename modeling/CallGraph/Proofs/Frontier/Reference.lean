import CallGraph.Proofs.Frontier.Session
import CallGraph.Proofs.Frontier.Slots
import CallGraph.Proofs.Search.Neighbours

/-!
# What the columns come to

The columns that commands lead to when every expansion is at once replaced by its rows, with no handles, no
tasks and no cancellation.  The slots of a frontier are mirrored by such columns when they have the same
selections and, wherever they have rows, rows alike.
-/

namespace CallGraph

/-- The columns after a command whose expansion is run at once. -/
noncomputable def Setting.perform (A : Setting) (columns : List Column) : Navigation.Command → List Column
  | .setRoots nodes => [.populated nodes]
  | .addRoots nodes => columns.modifyHead fun root => { root with nodes := root.nodes ++ nodes }
  | .removeRoots nodes =>
    match columns with
    | [] => []
    | root :: rest =>
      let kept := root.nodes.filter fun node => !Frontier.isAmong nodes node
      match root.selectedNode? with
      | none => { root with nodes := kept } :: rest
      | some selected =>
        if Frontier.isAmong nodes selected then [{ root with nodes := kept, selected := none }]
        else { root with nodes := kept, selected := kept.findIdx? (·.same selected) } :: rest
  | .select column row =>
    match columns[column]? with
    | none => columns
    | some chosen =>
      match chosen.nodes[row]? with
      | none => columns
      | some node =>
        columns.take column ++ [{ chosen with selected := some row }, .populated (A.rows node)]

/-- The columns after some commands. -/
noncomputable def Setting.performAll (A : Setting) (commands : List Navigation.Command) : List Column :=
  commands.foldl A.perform [.populated []]

/-- What is seen of a column. -/
def Column.view (c : Column) : List Element × ColumnState × Option Nat :=
  (c.elements, c.state, c.selected)

/-- A column has the selection of another one and, once it has rows, rows alike. -/
structure Column.IsMirrored (a b : Column) : Prop where
  selected : a.selected = b.selected
  populated : b.state = .populated
  nodes : a.state = .populated → List.Forall₂ Node.Alike a.nodes b.nodes

/-- A column with rows shows what the column that mirrors it shows. -/
theorem Column.IsMirrored.view_eq {a b : Column} (h : a.IsMirrored b) (hpopulated : a.state = .populated) :
  a.view = b.view
  := by
  have helements : a.elements = b.elements := by
    have hnodes := h.nodes hpopulated
    simp only [Column.elements]
    generalize a.nodes = rows, b.nodes = rows' at hnodes
    induction hnodes with
    | nil => rfl
    | cons halike _ ih => rw [List.map_cons, List.map_cons, halike.element, ih]
  rw [Column.view, Column.view, helements, hpopulated, h.populated, h.selected]

/-- Slots are mirrored by columns; column 0 is the same. -/
structure Mirrored (slots : List Slot) (columns : List Column) : Prop where
  length : slots.length = columns.length
  root : ∀ (slot : Slot) (column : Column), slots[0]? = some slot → columns[0]? = some column →
    slot.column = column
  mirrored : ∀ (i : Nat) (slot : Slot) (column : Column), slots[i]? = some slot →
    columns[i]? = some column → slot.column.IsMirrored column

namespace Mirrored

variable {slots : List Slot} {columns : List Column}

/-- A populated column is mirrored by itself. -/
theorem isMirrored_self {column : Column} (hpopulated : column.state = .populated) :
  column.IsMirrored column
  := by
  constructor
  · rfl
  · apply hpopulated
  · exact fun _ => List.forall₂_same.mpr fun node _ => .refl node

/-- The column that mirrors a slot. -/
theorem exists_column (h : Mirrored slots columns) {i : Nat} {slot : Slot} (hslot : slots[i]? = some slot) :
  ∃ column, columns[i]? = some column ∧ slot.column.IsMirrored column
  := by
  have hlt : i < columns.length := by
    rw [← h.length]
    apply (List.getElem?_eq_some_iff.mp hslot).1
  use columns[i], List.getElem?_eq_getElem hlt
  apply h.mirrored i slot _ hslot (List.getElem?_eq_getElem hlt)

/-- A single column. -/
theorem single {slot : Slot} {column : Column} (heq : slot.column = column)
    (hpopulated : column.state = .populated) :
  Mirrored [slot] [column]
  := by
  constructor
  · rfl
  · rintro _ _ ⟨⟩ ⟨⟩
    apply heq
  · intro i slot' column' hslot hcolumn
    cases i with
    | zero =>
        cases hslot
        cases hcolumn
        rw [heq]
        apply isMirrored_self hpopulated
    | succ i => cases hslot

/-- Column 0 changes in both. -/
theorem changeRoots {slot slot' : Slot} {rest : List Slot} {column column' : Column}
    {others : List Column} (h : Mirrored (slot :: rest) (column :: others)) (heq : slot'.column = column')
    (hpopulated : column'.state = .populated) :
  Mirrored (slot' :: rest) (column' :: others)
  := by
  constructor
  · apply h.length
  · rintro _ _ ⟨⟩ ⟨⟩
    apply heq
  · intro i slot₀ column₀ hslot hcolumn
    cases i with
    | zero =>
        cases hslot
        cases hcolumn
        rw [heq]
        apply isMirrored_self hpopulated
    | succ i => apply h.mirrored (i + 1) slot₀ column₀ hslot hcolumn

/-- A row is selected in both; the column right of it is to be populated or has its rows. -/
theorem select (h : Mirrored slots columns) {index : Nat} {slot : Slot} {column : Column}
    (hslot : slots[index]? = some slot) (hcolumn : columns[index]? = some column) (row : Nat)
    (p : Option Pending) (rows : List Node) :
  Mirrored
    (slots.take index ++ [⟨{ slot.column with selected := some row }, p⟩, .populating])
    (columns.take index ++ [{ column with selected := some row }, .populated rows])
  := by
  have hslots : index ≤ slots.length := Nat.le_of_lt (List.getElem?_eq_some_iff.mp hslot).1
  have hcolumns : index ≤ columns.length := h.length ▸ hslots
  have hchosen := h.mirrored index slot column hslot hcolumn
  constructor
  · rw [length_cut _ hslots, length_cut _ hcolumns]
    rfl
  · intro slot₀ column₀ hslot₀ hcolumn₀
    cases index with
    | zero =>
        cases hslot₀
        cases hcolumn₀
        rw [← h.root slot column hslot hcolumn]
    | succ index =>
        rw [getElem?_cut_of_lt _ (Nat.succ_pos index) hslots] at hslot₀
        rw [getElem?_cut_of_lt _ (Nat.succ_pos index) hcolumns] at hcolumn₀
        apply h.root slot₀ column₀ hslot₀ hcolumn₀
  · intro i slot₀ column₀ hslot₀ hcolumn₀
    rcases Nat.lt_or_ge i index with hi | hi
    · rw [getElem?_cut_of_lt _ hi hslots] at hslot₀
      rw [getElem?_cut_of_lt _ hi hcolumns] at hcolumn₀
      apply h.mirrored i slot₀ column₀ hslot₀ hcolumn₀
    · obtain ⟨k, rfl⟩ := Nat.exists_eq_add_of_le hi
      rw [getElem?_cut_add _ hslots] at hslot₀
      rw [getElem?_cut_add _ hcolumns] at hcolumn₀
      match k with
      | 0 =>
        cases hslot₀
        cases hcolumn₀
        exact ⟨rfl, hchosen.populated, hchosen.nodes⟩
      | 1 =>
        cases hslot₀
        cases hcolumn₀
        exact ⟨rfl, rfl, nofun⟩

/-- The rows of a column are published. -/
theorem publish (h : Mirrored slots columns) {index : Nat} {slot : Slot} {column : Column}
    {nodes : List Node} (hslot : slots[index + 1]? = some slot) (hunselected : slot.column.selected = none)
    (hcolumn : columns[index + 1]? = some column) (hnodes : List.Forall₂ Node.Alike nodes column.nodes) :
  Mirrored (slots.modify (index + 1) fun slot => { slot with column := .populated nodes }) columns
  := by
  have hmirrored := h.mirrored (index + 1) slot column hslot hcolumn
  constructor
  · rw [List.length_modify, h.length]
  · intro slot₀ column₀ hslot₀ hcolumn₀
    rw [List.getElem?_modify_ne _ _ (Nat.succ_ne_zero index)] at hslot₀
    apply h.root slot₀ column₀ hslot₀ hcolumn₀
  · intro i slot₀ column₀ hslot₀ hcolumn₀
    by_cases hi : index + 1 = i
    · subst hi
      rw [List.getElem?_modify_eq, hslot] at hslot₀
      cases hslot₀
      rw [hcolumn] at hcolumn₀
      cases hcolumn₀
      refine ⟨?_, hmirrored.populated, fun _ => hnodes⟩
      rw [← hmirrored.selected, hunselected]
      rfl
    · rw [List.getElem?_modify_ne _ _ hi] at hslot₀
      apply h.mirrored i slot₀ column₀ hslot₀ hcolumn₀

end Mirrored

end CallGraph
