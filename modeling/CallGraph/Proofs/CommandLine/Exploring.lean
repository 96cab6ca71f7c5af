import CallGraph.CommandLine.Program
import CallGraph.Proofs.Frontier.Callers
import CallGraph.Proofs.Frontier.Interleaving
import CallGraph.Proofs.Search.Parts
import CallGraph.Proofs.Settings.Replacement
import CallGraph.Source.Grammar

/-!
# Exploring

The command that explores selects a row in one column after the other, in each the one that a name picks: the first of
that name, else the first whose name starts with it.  It ends in the first column in which there is no name left or the
next one picks no row.  Every selection is of a row that is there, so none fails and neither does the command.

A navigation is settled when no expansion is left to do.  A caller that selects a row of the last column, and expands
it at once, leaves a settled navigation settled, with multithreading or without it: the columns before stay as they
are, and the one that is new has its rows.
-/

namespace CallGraph

/-! ### Selecting at once -/

section

variable {σ : Type}

namespace Navigation

variable {n : Navigation σ} {before : List Column} {last : Column} {row : Nat} {node : Node}

/-- An expansion that a caller runs fills the column it is for, if any. -/
theorem columns_runExpansion (n : Navigation σ) (handle : Token) (column : Nat) (search : Search (List Node)) :
  ∃ publish : Column → Column,
    (n.runExpansion handle ⟨column, .searching search⟩).frontier.columns =
      n.frontier.columns.modify (column + 1) publish ∧
    (n.runExpansion handle ⟨column, .searching search⟩).frontier.expansions = n.frontier.expansions
  := by
  have hsame : n.frontier.columns = n.frontier.columns.modify (column + 1) id := (List.modify_id _ _).symm
  rw [runExpansion]
  split
  case isTrue => exact ⟨id, hsame, rfl⟩
  case isFalse =>
    dsimp only [finish, Navigation.publish, Frontier.publish, Frontier.columns]
    split
    case isTrue => exact ⟨id, hsame, rfl⟩
    case isFalse =>
      refine ⟨fun _ => .populated (n.workspace.run search).1, ?_, rfl⟩
      apply List.ext_getElem?
      intro i
      rw [List.getElem?_map, List.getElem?_modify, List.getElem?_modify, List.getElem?_map]
      split <;> cases n.frontier.slots[i]? <;> rfl

/-- A navigation of which no expansion is left to do. -/
def IsSettled (n : Navigation σ) : Prop :=
  ∃ s : Session σ, s.navigation = n ∧ s.IsOrderly ∧ s.IsDrained

namespace IsSettled

/-- A new navigation is settled, even if other searches have gone on before it. -/
theorem empty {w : Workspace σ} (hp : w.provider.SparesHandles) (hspares : Searches.Spares {} w.searches)
    (cacheSize : Nat) :
  IsSettled ⟨w, .empty cacheSize⟩
  :=
  ⟨_, rfl, (Session.IsOrderly.ofWorkspace hp cacheSize).step (.elsewhere _ w rfl hspares), rfl⟩

theorem setRoots (h : n.IsSettled) (nodes : List Node) :
  (n.setRoots nodes).IsSettled
  := by
  obtain ⟨s, rfl, horderly, hdrained⟩ := h
  exact ⟨_, rfl, horderly.setRoots nodes, hdrained⟩

/-- Neither the log nor whether selected rows are shown matters. -/
theorem aside (h : n.IsSettled) (log : List LogLine) (autoHighlight : Bool) :
  IsSettled ⟨{ n.workspace with log }, { n.frontier with autoHighlight }⟩
  := by
  obtain ⟨s, rfl, horderly, hdrained⟩ := h
  exact ⟨{ s with navigation := _ }, rfl, ⟨horderly.provider, horderly.orderly⟩, hdrained⟩

/-- All columns have their rows. -/
theorem populated (h : n.IsSettled) {column : Column} (hcolumn : column ∈ n.frontier.columns) :
  column.state = .populated
  := by
  obtain ⟨s, rfl, horderly, hdrained⟩ := h
  obtain ⟨i, hi⟩ := List.getElem?_of_mem hcolumn
  exact horderly.populated_of_isDrained hdrained hi

/-- Nothing is selected in the last column. -/
theorem unselected (h : n.IsSettled) (hcolumns : n.frontier.columns = before ++ [last]) :
  last.selected = none
  := by
  obtain ⟨s, rfl, horderly, -⟩ := h
  apply (Session.showsExpansions_of_isOrderly horderly).unselected
  rw [Session.columns, hcolumns, List.getLast?_concat]

end IsSettled

end Navigation

end

/-! ### Rows that names pick -/

/-- The first of some elements with a name of some kind. -/
structure IsFirst (p : String → Prop) (elements : List Element) (row : Nat) : Prop where
  holds : ∃ e, elements[row]? = some e ∧ p e.name
  first : ∀ i e, i < row → elements[i]? = some e → ¬ p e.name

/-- The row that a name picks: the first of that name, else the first whose name starts with it. -/
inductive Picks (name : String) (elements : List Element) (row : Nat) : Prop where
  | exact (first : IsFirst (· = name) elements row)
  | start (absent : ∀ e ∈ elements, e.name ≠ name) (first : IsFirst (∃ more, · = name ++ more) elements row)

theorem IsFirst.exists_node {p : String → Prop} {column : Column} {row : Nat} (h : IsFirst p column.elements row) :
  ∃ node, column.nodes[row]? = some node
  := by
  obtain ⟨⟨e, he, -⟩, -⟩ := h
  rw [Column.elements, List.getElem?_map] at he
  obtain ⟨node, hnode, -⟩ := Option.map_eq_some_iff.mp he
  exact ⟨node, hnode⟩

/-- A row that is picked is there. -/
theorem Picks.exists_node {name : String} {column : Column} {row : Nat} (h : Picks name column.elements row) :
  ∃ node, column.nodes[row]? = some node
  := by
  cases h with
  | exact first => exact first.exists_node
  | start absent first => exact first.exists_node

theorem isFirst_iff {p : String → Prop} (test : String → Bool) (htest : ∀ s, test s = true ↔ p s)
    {elements : List Element} {row : Nat} :
  elements.findIdx? (test ·.name) = some row ↔ IsFirst p elements row
  := by
  rw [List.findIdx?_eq_some_iff_getElem]
  constructor
  · rintro ⟨hlt, hrow, hfirst⟩
    refine ⟨⟨_, List.getElem?_eq_getElem hlt, (htest _).mp hrow⟩, fun i e hi he hp => ?_⟩
    obtain ⟨hlt', rfl⟩ := List.getElem?_eq_some_iff.mp he
    exact hfirst i hi ((htest _).mpr hp)
  · rintro ⟨⟨e, he, hp⟩, hfirst⟩
    obtain ⟨hlt, rfl⟩ := List.getElem?_eq_some_iff.mp he
    refine ⟨hlt, (htest _).mpr hp, fun i hi hp' => ?_⟩
    exact hfirst i _ hi (List.getElem?_eq_getElem _) ((htest _).mp hp')

namespace Program

variable {name : String} {elements : List Element} {row : Nat}

theorem isPrefixOf_iff {name other : String} :
  name.toList.isPrefixOf other.toList = true ↔ ∃ more, other = name ++ more
  := by
  rw [List.isPrefixOf_iff_prefix]
  constructor
  · rintro ⟨more, hmore⟩
    exists String.ofList more
    rw [← String.toList_inj, String.toList_append, String.toList_ofList, hmore]
  · rintro ⟨more, rfl⟩
    rw [String.toList_append]
    exact List.prefix_append _ _

/-- The row that is selected is the one that the name picks. -/
theorem rowOf?_eq_some_iff :
  rowOf? name elements = some row ↔ Picks name elements row
  := by
  have hexact : elements.findIdx? (·.name == name) = some row ↔ IsFirst (· = name) elements row :=
    isFirst_iff (· == name) fun s => beq_iff_eq
  have hstart : elements.findIdx? (name.toList.isPrefixOf ·.name.toList) = some row ↔
      IsFirst (∃ more, · = name ++ more) elements row :=
    isFirst_iff (name.toList.isPrefixOf ·.toList) fun s => isPrefixOf_iff
  cases hfound : elements.findIdx? (·.name == name) with
  | some first =>
    have hpresent : ¬ ∀ e ∈ elements, e.name ≠ name := by
      obtain ⟨hlt, hname, -⟩ := List.findIdx?_eq_some_iff_getElem.mp hfound
      exact fun habsent => habsent _ (List.getElem_mem hlt) (beq_iff_eq.mp hname)
    rw [rowOf?, hfound]
    rw [hfound] at hexact
    change some first = some row ↔ _
    rw [hexact]
    constructor
    · exact .exact
    · rintro (hfirst | ⟨habsent, -⟩)
      · exact hfirst
      · contradiction
  | none =>
    have habsent : ∀ e ∈ elements, e.name ≠ name := fun e he hname =>
      Bool.false_ne_true ((List.findIdx?_eq_none_iff.mp hfound e he).symm.trans (beq_iff_eq.mpr hname))
    rw [rowOf?, hfound]
    change elements.findIdx? _ = some row ↔ _
    rw [hstart]
    constructor
    · exact .start habsent
    · rintro (⟨⟨e, he, hname⟩, -⟩ | ⟨-, hfirst⟩)
      · exact absurd hname (habsent e (List.mem_of_getElem? he))
      · exact hfirst

/-! ### Following names -/

/-- What following names comes to, from the columns before on: some of them are followed, and then there is a column
more than these. -/
structure Explored (n : Navigation Source.Index) (before : List Column) (names : List String) (followed : Nat)
    (columns : List Column) : Prop where
  /-- No selection fails. -/
  succeeds : ∃ n', follow n before.length names = (.ok (), n') ∧ n'.frontier.columns = before ++ columns
  le : followed ≤ names.length
  length : columns.length = followed + 1
  populated : ∀ column ∈ columns, column.state = .populated
  /-- In each column the row is selected that the name picks. -/
  selected : ∀ i name column, i < followed → names[i]? = some name → columns[i]? = some column →
    ∃ row, column.selected = some row ∧ Picks name column.elements row
  /-- The last column is one in which no name is left or the next one picks no row. -/
  stopped : ∀ column, columns[followed]? = some column → column.selected = none ∧
    ∀ name, names[followed]? = some name → ∀ row, ¬ Picks name column.elements row
  /-- A column is as fewer names have left it, but that the next name has selected a row in it. -/
  kept : ∀ i column, columns[i]? = some column →
    ∃ n', follow n before.length (names.take i) = (.ok (), n') ∧
      n'.frontier.columns = before ++ columns.take i ++ [{ column with selected := none }]

variable {n n' : Navigation Source.Index} {before columns : List Column} {last : Column} {names : List String}

theorem column?_eq (hcolumns : n.frontier.columns = before ++ [last]) :
  n.frontier.column? before.length = some last
  := by
  rw [Frontier.column?, ← List.getElem?_map, ← Frontier.columns, hcolumns, List.getElem?_concat_length]

/-- Without a name all columns stay as they are. -/
theorem exists_follow_nil (hcolumns : n.frontier.columns = before ++ [last]) (hlast : last.selected = none) :
  ∃ n', follow n before.length [] = (.ok (), n') ∧
    n'.frontier.columns = before ++ [] ++ [{ last with selected := none }]
  := by
  refine ⟨n, rfl, ?_⟩
  rw [hcolumns, List.append_nil, ← hlast]

/-- Nothing is followed if there is no name or the first one picks no row. -/
theorem Explored.stop (h : n.IsSettled) (hcolumns : n.frontier.columns = before ++ [last])
    (hnone : ∀ name ∈ names.head?, rowOf? name last.elements = none) :
  Explored n before names 0 [last]
  := by
  have hlast := h.unselected hcolumns
  constructor
  case succeeds =>
    cases names with
    | nil => exact ⟨n, rfl, hcolumns⟩
    | cons name names =>
      rw [follow, column?_eq hcolumns]
      dsimp only
      rw [hnone name rfl]
      exact ⟨_, rfl, hcolumns⟩
  case le => exact Nat.zero_le _
  case length => rfl
  case populated =>
    intro column hcolumn
    obtain rfl := List.mem_singleton.mp hcolumn
    exact h.populated (hcolumns ▸ List.mem_append_right _ hcolumn)
  case selected => exact fun i name column hi => absurd hi (Nat.not_lt_zero i)
  case stopped =>
    rintro _ ⟨⟩
    refine ⟨hlast, fun name hname row hpicks => ?_⟩
    rw [← List.head?_eq_getElem?] at hname
    rw [← rowOf?_eq_some_iff, hnone name hname] at hpicks
    cases hpicks
  case kept =>
    intro i column hcolumn
    obtain ⟨rfl, rfl⟩ : i = 0 ∧ last = column := by simpa [List.getElem?_singleton] using hcolumn
    exact exists_follow_nil hcolumns hlast

/-- The first name picks a row, and the others are followed from the next column on. -/
theorem Explored.select {followed : Nat} (hcolumns : n.frontier.columns = before ++ [last])
    (hrow : rowOf? name last.elements = some row) (hlast : last.selected = none) (hpopulated : last.state = .populated)
    (hstep : ∀ more, follow n before.length (name :: more) = follow n' (before.length + 1) more)
    (h : Explored n' (before ++ [{ last with selected := some row }]) names followed columns) :
  Explored n before (name :: names) (followed + 1) ({ last with selected := some row } :: columns)
  := by
  have hindex : (before ++ [{ last with selected := some row }]).length = before.length + 1 := List.length_append
  constructor
  case succeeds =>
    obtain ⟨n'', hfollow, hcolumns'⟩ := h.succeeds
    refine ⟨n'', ?_, hcolumns'.trans (List.append_assoc before [_] columns)⟩
    rw [hstep, ← hindex, hfollow]
  case le => exact Nat.succ_le_succ h.le
  case length => exact congrArg (· + 1) h.length
  case populated =>
    intro column hcolumn
    rcases List.mem_cons.mp hcolumn with rfl | hcolumn
    · exact hpopulated
    · exact h.populated column hcolumn
  case selected =>
    intro i name' column hi hname hcolumn
    cases i with
    | zero =>
      cases hname
      cases hcolumn
      exact ⟨row, rfl, rowOf?_eq_some_iff.mp hrow⟩
    | succ i => exact h.selected i name' column (Nat.lt_of_succ_lt_succ hi) hname hcolumn
  case stopped => exact h.stopped
  case kept =>
    intro i column hcolumn
    cases i with
    | zero =>
      cases hcolumn
      have hstart := exists_follow_nil hcolumns hlast
      exact hstart
    | succ i =>
      obtain ⟨n'', hfollow, hcolumns'⟩ := h.kept i column hcolumn
      refine ⟨n'', ?_, ?_⟩
      · rw [List.take_succ_cons, hstep, ← hindex, hfollow]
      · rw [hcolumns', List.take_succ_cons, List.append_assoc before [_]]
        rfl

end Program

namespace Project

variable {σ δ : Type}

end Project

theorem Source.Index.provider_sparesHandles [Source.Parser] :
  Source.Index.provider.SparesHandles
  where
  pose q d := .refl _
  answer files q token d := by
    rw [Source.Index.provider]
    dsimp only
    split
    · exact .refl _
    · exact .refl _

namespace Program

section Parsed

variable [Source.Parser]

end Parsed

/-! ### A module -/

section WithModule

open scoped Source.Grammar

end WithModule

end Program

end CallGraph
