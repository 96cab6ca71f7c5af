import CallGraph.Frontier.Basic
import CallGraph.Proofs.Signals

/-!
# Rows of slots

The slots of a frontier are a row: each but the last has a selection whose expansion fills the next one, and
the last has none.  `Lined` says so of the selections that stand.  Selecting, publishing and changing the
roots keep the row in line, and cancelling the expansions from an index on touches their handles and, at
most, the searches under way.
-/

namespace CallGraph

/-! ### Cancelling expansions -/

/-- What cancelling expansions does: those not finished are cancelled, and nothing is besides them but, if
there was one to cancel, the searches under way. -/
structure Searches.Cancels (ps : List Pending) (c c' : Searches) : Prop where
  finished : c'.signals.finished = c.signals.finished
  next : c'.signals.next = c.signals.next
  live : c'.live = c.live
  keeps : ∀ t, c.isCancelled t → c'.isCancelled t
  handles : ∀ p ∈ ps, c.signals.isFinished p.handle ∨ c'.isCancelled p.handle
  only : ∀ t, c'.isCancelled t → c.isCancelled t ∨
    ∃ p ∈ ps, c.signals.isFinished p.handle = false ∧ (p.handle.Covers t ∨ ∃ u ∈ c.live, u.Covers t)

namespace Pending

/-- Cancelling one expansion. -/
theorem cancels_cancel (p : Pending) (c : Searches) :
  c.Cancels [p] (p.cancel c)
  := by
  rw [cancel, Node.cancelSearch]
  split
  case isTrue h =>
    constructor
    · rfl
    · rfl
    · rfl
    · exact fun _ => id
    · intro q hq
      rw [List.mem_singleton.mp hq]
      exact .inl h
    · exact fun _ => .inl
  case isFalse h =>
    have hunfinished : c.signals.isFinished p.handle = false := by simpa using h
    split
    case isTrue =>
      constructor
      · apply c.signals.finished_cancel _
      · apply c.signals.next_cancel _
      · rfl
      · intro t ht
        apply (c.isCancelled_cancel _ _).mpr (.inr ht)
      · intro q hq
        rw [List.mem_singleton.mp hq]
        exact .inr ((c.isCancelled_cancel _ _).mpr (.inl p.handle.covers_self))
      · intro t ht
        rcases (c.isCancelled_cancel _ _).mp ht with ht | ht
        · exact .inr ⟨p, List.mem_singleton_self p, hunfinished, .inl ht⟩
        · exact .inl ht
    case isFalse =>
      constructor
      · simp [Searches.cancelAll, Searches.cancel]
      · simp [Searches.cancelAll, Searches.cancel]
      · rfl
      · intro t ht
        apply (Searches.isCancelled_cancelAll _ _).mpr
        exact .inr ((c.isCancelled_cancel _ _).mpr (.inr ht))
      · intro q hq
        rw [List.mem_singleton.mp hq]
        apply Or.inr
        apply (Searches.isCancelled_cancelAll _ _).mpr
        exact .inr ((c.isCancelled_cancel _ _).mpr (.inl p.handle.covers_self))
      · intro t ht
        rcases (Searches.isCancelled_cancelAll _ _).mp ht with ht | ht
        · exact .inr ⟨p, List.mem_singleton_self p, hunfinished, .inr ht⟩
        · rcases (c.isCancelled_cancel _ _).mp ht with ht | ht
          · exact .inr ⟨p, List.mem_singleton_self p, hunfinished, .inl ht⟩
          · exact .inl ht

end Pending

namespace Searches

variable {c c' c'' : Searches} {ps qs : List Pending}

/-- Cancelling nothing. -/
theorem Cancels.nil (c : Searches) :
  c.Cancels [] c
  := by
  constructor
  · rfl
  · rfl
  · rfl
  · exact fun _ => id
  · intro p hp
    cases hp
  · exact fun _ => .inl

/-- Cancelling expansions one after the other. -/
theorem Cancels.append (h : c.Cancels ps c') (h' : c'.Cancels qs c'') :
  c.Cancels (ps ++ qs) c''
  := by
  have hfinished : ∀ t, c'.signals.isFinished t = c.signals.isFinished t := by
    intro t
    rw [Signals.isFinished, Signals.isFinished, h.finished]
  constructor
  · rw [h'.finished, h.finished]
  · rw [h'.next, h.next]
  · rw [h'.live, h.live]
  · exact fun t ht => h'.keeps t (h.keeps t ht)
  · intro p hp
    rcases List.mem_append.mp hp with hp | hp
    · apply (h.handles p hp).imp id (h'.keeps _)
    · rw [← hfinished]
      apply h'.handles p hp
  · intro t ht
    rcases h'.only t ht with ht | ⟨p, hp, hunfinished, hcovers⟩
    · rcases h.only t ht with ht | ⟨p, hp, hrest⟩
      · exact .inl ht
      · exact .inr ⟨p, List.mem_append_left _ hp, hrest⟩
    · rw [hfinished] at hunfinished
      rw [h.live] at hcovers
      exact .inr ⟨p, List.mem_append_right _ hp, hunfinished, hcovers⟩

/-- Cancelling changes nothing of what is finished. -/
theorem Cancels.isFinished (h : c.Cancels ps c') (t : Token) :
  c'.signals.isFinished t = c.signals.isFinished t
  := by
  rw [Signals.isFinished, Signals.isFinished, h.finished]

/-- Cancelling expansions whose handles are given out keeps the searches sound. -/
theorem Cancels.sound (h : c.Cancels ps c') (hc : c.Sound)
    (hps : ∀ p ∈ ps, ∃ k < c.signals.next, p.handle = .root k) :
  c'.Sound
  := by
  apply hc.mono (Nat.le_of_eq h.next.symm)
  · intro k hk
    rcases h.only _ hk with hk | ⟨p, hp, -, hcovers | ⟨u, hu, hcovers⟩⟩
    · exact .inl hk
    · obtain ⟨m, hm, heq⟩ := hps p hp
      rw [Token.covers_root_iff, heq] at hcovers
      obtain ⟨rfl⟩ := hcovers
      exact .inr hm
    · rw [Token.covers_root_iff] at hcovers
      rw [hcovers] at hu
      exact absurd hu (hc.live k)
  · intro k hk
    rw [h.isFinished] at hk
    exact .inl hk
  · intro k hk
    rw [h.live] at hk
    apply hk

end Searches

/-- The expansions that slots wait for. -/
def pendings (slots : List Slot) : List Pending :=
  slots.filterMap (·.pending)

/-- The slots left of an index stay as they are when those from it on are cancelled. -/
theorem cancelFrom_take (index : Nat) (slots : List Slot) (c : Searches) :
  (cancelFrom index slots c).1.take index = slots.take index
  := by
  induction slots generalizing index c with
  | nil => cases index <;> rfl
  | cons slot slots ih =>
      cases index with
      | zero => rfl
      | succ index => simp [cancelFrom, ih]

/-- The expansions of the slots from an index on are cancelled. -/
theorem cancelFrom_cancels (index : Nat) (slots : List Slot) (c : Searches) :
  c.Cancels (pendings (slots.drop index)) (cancelFrom index slots c).2
  := by
  induction slots generalizing index c with
  | nil =>
      rw [List.drop_nil]
      cases index <;> exact .nil c
  | cons slot slots ih =>
      cases index with
      | succ index => apply ih index c
      | zero =>
          have hrest : pendings slots = pendings (slots.drop 0) := rfl
          cases hpending : slot.pending with
          | none =>
              have hslot : pendings (slot :: slots) = pendings slots := by simp [pendings, hpending]
              rw [List.drop_zero, hslot, hrest, cancelFrom]
              simp only [hpending]
              apply ih 0 c
          | some p =>
              have hslot : pendings (slot :: slots) = [p] ++ pendings slots := by
                simp [pendings, hpending]
              rw [List.drop_zero, hslot, hrest, cancelFrom]
              simp only [hpending]
              apply (p.cancels_cancel c).append (ih 0 _)

/-! ### Rows in line -/

/-- The selected node is one of the rows. -/
theorem Column.mem_of_selectedNode? {column : Column} {node : Node}
    (h : column.selectedNode? = some node) :
  node ∈ column.nodes
  := by
  obtain ⟨row, -, hget⟩ := Option.bind_eq_some_iff.mp h
  apply List.mem_of_getElem? hget

/-- A selection stands in a slot: the slot waits for its expansion and shows its node as selected. -/
structure Slot.Holds (slot : Slot) (p : Pending) : Prop where
  pending : slot.pending = some p
  populated : slot.column.state = .populated
  selected : ∃ node, slot.column.selectedNode? = some node ∧ node.same p.node

/-- Nothing is selected in a slot.  While it is being populated it has no rows. -/
structure Slot.IsOpen (slot : Slot) : Prop where
  pending : slot.pending = none
  selected : slot.column.selected = none
  nodes : slot.column.state = .populating → slot.column.nodes = []

namespace Slot

variable {slot : Slot} {p : Pending}

/-- A column that has its rows and no selection is open. -/
theorem isOpen_of_populated (hpending : slot.pending = none) (hselected : slot.column.selected = none)
    (hpopulated : slot.column.state = .populated) :
  slot.IsOpen
  := by
  refine ⟨hpending, hselected, ?_⟩
  intro hpopulating
  rw [hpopulated] at hpopulating
  cases hpopulating

/-- A selection still stands in a column that gets more rows. -/
theorem Holds.append (h : slot.Holds p) (nodes : List Node) :
  Holds { slot with column := { slot.column with nodes := slot.column.nodes ++ nodes } } p
  := by
  obtain ⟨node, hnode, hsame⟩ := h.selected
  refine ⟨h.pending, h.populated, node, ?_, hsame⟩
  obtain ⟨row, hrow, hget⟩ := Option.bind_eq_some_iff.mp hnode
  apply Option.bind_eq_some_iff.mpr
  use row, hrow
  rw [List.getElem?_append_left (List.getElem?_eq_some_iff.mp hget).1, hget]

/-- A selection still stands in a column that keeps the selected node, whose row is looked up again. -/
theorem Holds.keep (h : slot.Holds p) {selected : Node}
    (hselected : slot.column.selectedNode? = some selected) {kept : List Node} (hmem : selected ∈ kept) :
  Holds
    { slot with
      column := { slot.column with nodes := kept, selected := kept.findIdx? (·.same selected) } } p
  := by
  obtain ⟨node, hnode, hsame⟩ := h.selected
  rw [hselected] at hnode
  cases hnode
  cases hrow : kept.findIdx? (·.same selected) with
  | none =>
      have hother := List.findIdx?_eq_none_iff.mp hrow selected hmem
      rw [Node.same, beq_self_eq_true] at hother
      cases hother
  | some row =>
      obtain ⟨hlt, hsame', -⟩ := List.findIdx?_eq_some_iff_getElem.mp hrow
      refine ⟨h.pending, h.populated, kept[row], List.getElem?_eq_getElem hlt, ?_⟩
      rw [Node.same, beq_iff_eq] at hsame hsame' ⊢
      rw [hsame', hsame]

end Slot

/-! ### Rows that are cut off and go on differently -/

section Cut

variable {α : Type} {l : List α} {n : Nat} (rest : List α)

/-- How long a list is that is cut off and goes on with a rest. -/
theorem length_cut (hn : n ≤ l.length) :
  (l.take n ++ rest).length = n + rest.length
  := by
  rw [List.length_append, List.length_take_of_le hn]

/-- Before the cut a list is as it was. -/
theorem getElem?_cut_of_lt {i : Nat} (hi : i < n) (hn : n ≤ l.length) :
  (l.take n ++ rest)[i]? = l[i]?
  := by
  have hlt : i < (l.take n).length := by
    rw [List.length_take_of_le hn]
    apply hi
  rw [List.getElem?_append_left hlt, List.getElem?_take_of_lt hi]

/-- From the cut on a list is the rest. -/
theorem getElem?_cut_add (hn : n ≤ l.length) (k : Nat) :
  (l.take n ++ rest)[n + k]? = rest[k]?
  := by
  have hlength := List.length_take_of_le hn
  have hle : (l.take n).length ≤ n + k := by
    rw [hlength]
    apply Nat.le_add_right
  rw [List.getElem?_append_right hle, hlength, Nat.add_sub_cancel_left]

end Cut

/-- The slots are in line with the selections that stand. -/
structure Lined (slots : List Slot) (standing : List Pending) : Prop where
  length : slots.length = standing.length + 1
  roots : ∃ slot, slots[0]? = some slot ∧ slot.column.state = .populated
  held : ∀ (i : Nat) (p : Pending), standing[i]? = some p → ∃ slot, slots[i]? = some slot ∧ slot.Holds p
  last : ∃ slot, slots[standing.length]? = some slot ∧ slot.IsOpen

namespace Lined

variable {slots : List Slot} {standing : List Pending}

/-- A new row of one slot. -/
theorem single {slot : Slot} (populated : slot.column.state = .populated) (isOpen : slot.IsOpen) :
  Lined [slot] []
  := by
  constructor
  · rfl
  · exact ⟨slot, rfl, populated⟩
  · intro i p hp
    cases hp
  · exact ⟨slot, rfl, isOpen⟩

/-- The slot of a selection that stands holds it. -/
theorem holds (h : Lined slots standing) {i : Nat} {p : Pending} {slot : Slot}
    (hp : standing[i]? = some p) (hslot : slots[i]? = some slot) :
  slot.Holds p
  := by
  obtain ⟨slot', hslot', hholds⟩ := h.held i p hp
  rw [hslot] at hslot'
  obtain rfl := Option.some.inj hslot'
  apply hholds

/-- A slot holds a selection that stands, or it is the last one and open. -/
theorem holds_or_isOpen (h : Lined slots standing) {i : Nat} {slot : Slot}
    (hslot : slots[i]? = some slot) :
  (∃ p, standing[i]? = some p ∧ slot.Holds p) ∨ (i = standing.length ∧ slot.IsOpen)
  := by
  have hlt : i < standing.length + 1 := by
    rw [← h.length]
    apply (List.getElem?_eq_some_iff.mp hslot).1
  rcases Nat.lt_succ_iff_lt_or_eq.mp hlt with hlt | rfl
  · have hp := List.getElem?_eq_getElem hlt
    exact .inl ⟨_, hp, h.holds hp hslot⟩
  · obtain ⟨slot', hslot', hopen⟩ := h.last
    rw [hslot] at hslot'
    obtain rfl := Option.some.inj hslot'
    exact .inr ⟨rfl, hopen⟩

/-- A column with a row in it is populated. -/
theorem populated_of_row (h : Lined slots standing) {i row : Nat} {slot : Slot} {node : Node}
    (hslot : slots[i]? = some slot) (hnode : slot.column.nodes[row]? = some node) :
  slot.column.state = .populated
  := by
  rcases h.holds_or_isOpen hslot with ⟨p, -, hholds⟩ | ⟨-, hopen⟩
  · apply hholds.populated
  · cases hstate : slot.column.state with
    | populated => rfl
    | populating =>
        rw [hopen.nodes hstate] at hnode
        cases hnode

/-- The slots wait for the selections that stand. -/
theorem mem_standing_of_mem_pendings (h : Lined slots standing) {index : Nat} {p : Pending}
    (hp : p ∈ pendings (slots.drop index)) :
  p ∈ standing
  := by
  obtain ⟨slot, hslot, hpending⟩ := List.mem_filterMap.mp hp
  obtain ⟨i, hi⟩ := List.getElem?_of_mem (List.mem_of_mem_drop hslot)
  rcases h.holds_or_isOpen hi with ⟨q, hq, hholds⟩ | ⟨-, hopen⟩
  · rw [hholds.pending] at hpending
    obtain rfl := Option.some.inj hpending
    apply List.mem_of_getElem? hq
  · rw [hopen.pending] at hpending
    cases hpending

/-- A selection that stands is one that its slot waits for. -/
theorem mem_pendings (h : Lined slots standing) {index i : Nat} {p : Pending}
    (hp : standing[i]? = some p) (hle : index ≤ i) :
  p ∈ pendings (slots.drop index)
  := by
  obtain ⟨slot, hslot, hheld⟩ := h.held i p hp
  apply List.mem_filterMap.mpr
  use slot, ?_, hheld.pending
  apply List.mem_of_getElem? (i := i - index)
  rw [List.getElem?_drop, Nat.add_sub_cancel' hle, hslot]

/-- Column 0 may change as long as what stands there keeps standing. -/
theorem changeRoots {slot slot' : Slot} {rest : List Slot} (h : Lined (slot :: rest) standing)
    (populated : slot'.column.state = .populated) (holds : ∀ p, slot.Holds p → slot'.Holds p)
    (isOpen : slot.IsOpen → slot'.IsOpen) :
  Lined (slot' :: rest) standing
  := by
  constructor
  · apply h.length
  · exact ⟨slot', rfl, populated⟩
  · intro i p hp
    obtain ⟨other, hother, hheld⟩ := h.held i p hp
    cases i with
    | zero =>
        cases hother
        exact ⟨slot', rfl, holds p hheld⟩
    | succ i => exact ⟨other, hother, hheld⟩
  · obtain ⟨other, hother, hopen⟩ := h.last
    cases hlength : standing.length with
    | zero =>
        rw [hlength] at hother
        cases hother
        exact ⟨slot', rfl, isOpen hopen⟩
    | succ n =>
        rw [hlength] at hother
        exact ⟨other, hother, hopen⟩

/-- A row is selected in a column with rows: the selections from there on give way to it. -/
theorem select {column row : Nat} {slot : Slot} {node : Node} (h : Lined slots standing)
    (hslot : slots[column]? = some slot) (hnode : slot.column.nodes[row]? = some node) (p : Pending)
    (hp : p.node = node) :
  Lined
    (slots.take column ++ [⟨{ slot.column with selected := some row }, some p⟩, .populating])
    (standing.take column ++ [p])
  := by
  have hlt : column < slots.length := (List.getElem?_eq_some_iff.mp hslot).1
  have hle : column ≤ standing.length := by
    rw [h.length] at hlt
    apply Nat.lt_succ_iff.mp hlt
  have hpopulated := h.populated_of_row hslot hnode
  have hholds : (⟨{ slot.column with selected := some row }, some p⟩ : Slot).Holds p := by
    constructor
    · rfl
    · apply hpopulated
    · exact ⟨node, hnode, by rw [hp, Node.same, beq_self_eq_true]⟩
  constructor
  · rw [length_cut _ (Nat.le_of_lt hlt), length_cut _ hle]
    rfl
  · cases column with
    | zero => exact ⟨_, rfl, hpopulated⟩
    | succ column =>
        obtain ⟨root, hroot, hrootPopulated⟩ := h.roots
        use root, ?_, hrootPopulated
        rw [getElem?_cut_of_lt _ (Nat.succ_pos column) (Nat.le_of_lt hlt), hroot]
  · intro i q hq
    rcases Nat.lt_or_ge i column with hi | hi
    · rw [getElem?_cut_of_lt _ hi hle] at hq
      rw [getElem?_cut_of_lt _ hi (Nat.le_of_lt hlt)]
      apply h.held i q hq
    · obtain ⟨k, rfl⟩ := Nat.exists_eq_add_of_le hi
      rw [getElem?_cut_add _ hle] at hq
      rw [getElem?_cut_add _ (Nat.le_of_lt hlt)]
      cases k with
      | zero =>
          cases hq
          exact ⟨_, rfl, hholds⟩
      | succ k => cases hq
  · refine ⟨.populating, ?_, ⟨rfl, rfl, fun _ => rfl⟩⟩
    rw [length_cut _ hle, getElem?_cut_add _ (Nat.le_of_lt hlt)]
    rfl

/-- The last column gets its rows. -/
theorem publish (h : Lined slots standing) {column : Nat} (hcolumn : column + 1 = standing.length)
    (nodes : List Node) :
  Lined (slots.modify (column + 1) fun slot => { slot with column := .populated nodes }) standing
  := by
  constructor
  · rw [List.length_modify, h.length]
  · obtain ⟨root, hroot, hpopulated⟩ := h.roots
    refine ⟨root, ?_, hpopulated⟩
    rw [List.getElem?_modify_ne _ _ (Nat.succ_ne_zero column), hroot]
  · intro i p hp
    obtain ⟨slot, hslot, hheld⟩ := h.held i p hp
    refine ⟨slot, ?_, hheld⟩
    have hlt : i < standing.length := (List.getElem?_eq_some_iff.mp hp).1
    rw [List.getElem?_modify_ne _ _ (by omega), hslot]
  · obtain ⟨slot, hslot, hopen⟩ := h.last
    use { slot with column := .populated nodes }
    constructor
    · rw [hcolumn, List.getElem?_modify_eq, hslot]
      rfl
    · exact ⟨hopen.pending, rfl, nofun⟩

/-- The path has the nodes of the selections that stand. -/
theorem selections_eq (h : Lined slots standing) :
  (Frontier.selections slots).map some = (slots.take standing.length).map (·.column.selectedNode?)
  := by
  have hselections : ∀ (n : Nat) (slots : List Slot),
      (∀ i < n, ∃ slot, slots[i]? = some slot ∧ ∃ node, slot.column.selectedNode? = some node) →
      (∃ slot, slots[n]? = some slot ∧ slot.column.selectedNode? = none) →
      (Frontier.selections slots).map some = (slots.take n).map (·.column.selectedNode?) := by
    intro n slots hselected hlast
    induction slots generalizing n with
    | nil =>
        obtain ⟨slot, hslot, -⟩ := hlast
        cases hslot
    | cons slot slots ih =>
        cases n with
        | zero =>
            obtain ⟨slot', hslot', hnone⟩ := hlast
            cases hslot'
            simp only [Frontier.selections, hnone, List.map_nil, List.take_zero]
        | succ n =>
            obtain ⟨slot', hslot', node, hnode⟩ := hselected 0 (Nat.succ_pos n)
            cases hslot'
            simp only [Frontier.selections, hnode, List.map_cons, List.take_succ_cons]
            rw [ih n _ hlast]
            exact fun i hi => hselected (i + 1) (Nat.succ_lt_succ hi)
  apply hselections
  · intro i hi
    obtain ⟨slot, hslot, hheld⟩ := h.held i _ (List.getElem?_eq_getElem hi)
    obtain ⟨node, hnode, -⟩ := hheld.selected
    exact ⟨slot, hslot, node, hnode⟩
  · obtain ⟨slot, hslot, hopen⟩ := h.last
    use slot, hslot
    rw [Column.selectedNode?, hopen.selected]
    rfl

/-- The path has a node for every selection that stands. -/
theorem length_selections (h : Lined slots standing) :
  (Frontier.selections slots).length = standing.length
  := by
  have hlength := congrArg List.length h.selections_eq
  rw [List.length_map, List.length_map, List.length_take_of_le] at hlength
  · exact hlength
  · rw [h.length]
    exact Nat.le_succ _

end Lined

end CallGraph
