import CallGraph.Proofs.Frontier.Attended
import CallGraph.Proofs.Frontier.Roots
import CallGraph.Proofs.Search.Sameness

/-!
# Adding and removing roots

Rows that are added to column 0, or taken out of it while the selected root stays, leave alone whatever is right of that
column, the expansions, and the path, by the numbers of its nodes.  When the selected root goes, column 0 is all that is
left, nothing is selected in it, and every expansion that is not finished is cancelled.
-/

namespace CallGraph

variable {σ : Type}

/-- Two nodes are one and the same, or show the same. -/
def Node.Coincides (a b : Node) : Prop :=
  a.number = b.number ∨ Equal a.element b.element

instance (a b : Node) : Decidable (a.Coincides b) :=
  inferInstanceAs (Decidable (_ ∨ _))

/-- A root is taken out together with the nodes that it coincides with. -/
theorem Frontier.isAmong_iff {nodes : List Node} {node : Node} :
  isAmong nodes node = true ↔ ∃ n ∈ nodes, n.Coincides node
  := by
  unfold Node.Coincides
  simp only [isAmong, List.any_eq_true, Bool.or_eq_true, Node.same, beq_iff_eq]

/-- The path goes on with the same nodes when its first one stays. -/
theorem Frontier.selections_congr {slot slot' : Slot} (rest : List Slot)
    (h : slot'.column.selectedNode?.map Node.number = slot.column.selectedNode?.map Node.number) :
  (selections (slot' :: rest)).map Node.number = (selections (slot :: rest)).map Node.number
  := by
  rw [selections, selections]
  cases hselected : slot.column.selectedNode? with
  | none =>
    rw [hselected, Option.map_none, Option.map_eq_none_iff] at h
    rw [h]
  | some node =>
    rw [hselected, Option.map_some, Option.map_eq_some_iff] at h
    obtain ⟨node', hselected', hnumber⟩ := h
    rw [hselected']
    simp only [List.map_cons, hnumber]

/-- Column 0 has some rows, and nothing but column 0 is different. -/
structure Navigation.ChangesRoots (n n' : Navigation σ) (nodes : List Node) : Prop where
  /-- It has its rows. -/
  roots : ∃ row, n'.frontier.columns.head? = some ⟨nodes, .populated, row⟩
  /-- The columns right of it are those that there were. -/
  columns : n'.frontier.columns.tail = n.frontier.columns.tail
  /-- The path has the same nodes. -/
  path : n'.frontier.path.map Node.number = n.frontier.path.map Node.number
  /-- The columns wait for the same expansions. -/
  pendings : n'.frontier.slots.map (·.pending) = n.frontier.slots.map (·.pending)
  /-- The signals of all tasks, the provider and all else are as they were. -/
  workspace : n'.workspace = n.workspace
  frontier : n'.frontier = { n.frontier with slots := n'.frontier.slots }

namespace Session

variable {s : Session σ}

/-- All selections are taken back: column 0 is left, with some rows. -/
structure Clears (s s' : Session σ) (nodes : List Node) : Prop where
  columns : s'.columns = [⟨nodes, .populated, none⟩]
  path : s'.navigation.frontier.path = []
  /-- Every expansion that is not finished is cancelled. -/
  cancelled : s'.tasks = s.tasks ∧
    ∀ x ∈ s.tasks, s.searches.signals.isFinished x.1 = false ∧ s'.searches.isCancelled x.1
  /-- None that a column waited for is left. -/
  pendings : ∀ p ∈ pendings s.slots, s.searches.signals.isFinished p.handle ∨ s'.searches.isCancelled p.handle

/-- Column 0 has the roots. -/
theorem roots_eq {root : Slot} {rest : List Slot} (hslots : s.slots = root :: rest) :
  s.navigation.frontier.roots = root.column.nodes
  := by
  rw [Frontier.roots, show s.navigation.frontier.slots = root :: rest from hslots]
  rfl

/-- A selection stands in column 0, or nothing is selected there. -/
theorem IsOrderly.holds_or_isOpen (h : s.IsOrderly) {root : Slot} {rest : List Slot}
    (hslots : s.slots = root :: rest) :
  (∃ p, root.Holds p) ∨ root.IsOpen
  := by
  have hroot : s.slots[0]? = some root := by rw [hslots, List.getElem?_cons_zero]
  exact (h.orderly.lined.holds_or_isOpen hroot).imp (fun ⟨p, _, hholds⟩ => ⟨p, hholds⟩) And.right

/-- The first node of the path is the selected root. -/
theorem head?_path {root : Slot} {rest : List Slot} (hslots : s.slots = root :: rest) :
  s.navigation.frontier.path.head? = root.column.selectedNode?
  := by
  have hslots : s.navigation.frontier.slots = root :: rest := hslots
  rw [Frontier.path, hslots, Frontier.selections]
  cases root.column.selectedNode? <;> rfl

theorem losesRoot_eq (s : Session σ) (nodes : List Node) :
  s.losesRoot nodes = s.navigation.frontier.path.head?.any (Frontier.isAmong nodes)
  := by
  cases hslots : s.slots with
  | nil =>
    have hslots : s.navigation.frontier.slots = [] := hslots
    rw [losesRoot, Frontier.column?, Frontier.path, hslots]
    rfl
  | cons root rest =>
    rw [head?_path hslots]
    have hslots : s.navigation.frontier.slots = root :: rest := hslots
    rw [losesRoot, Frontier.column?, hslots]
    rfl

/-- A column 0 that goes on with other rows. -/
theorem changesRoots_of_slots {root : Slot} {rest : List Slot} (hslots : s.slots = root :: rest)
    (hpopulated : root.column.state = .populated) {nodes : List Node} {row : Option Nat}
    (hselected : (Column.selectedNode? ⟨nodes, .populated, row⟩).map Node.number =
      root.column.selectedNode?.map Node.number) :
  s.navigation.ChangesRoots
    { s.navigation with
      frontier := { s.navigation.frontier with
        slots := { root with column := { root.column with nodes, selected := row } } :: rest } }
    nodes
  := by
  have hslots : s.navigation.frontier.slots = root :: rest := hslots
  constructor
  · refine ⟨row, ?_⟩
    rw [← hpopulated]
    rfl
  · rw [Frontier.columns, Frontier.columns, hslots]
    rfl
  · rw [Frontier.path, Frontier.path, hslots]
    rw [← hpopulated] at hselected
    exact Frontier.selections_congr rest hselected
  · rw [hslots]
    rfl
  · rfl
  · rfl

/-- Rows are added at the end of column 0. -/
theorem IsOrderly.changesRoots_addRoots (h : s.IsOrderly) (nodes : List Node) :
  s.navigation.ChangesRoots (s.navigation.addRoots nodes) (s.navigation.frontier.roots ++ nodes)
  := by
  obtain ⟨root, rest, hslots, hpopulated⟩ := h.exists_root
  have hadd : s.navigation.addRoots nodes =
      { s.navigation with
        frontier := { s.navigation.frontier with
          slots := { root with
            column := { root.column with
              nodes := root.column.nodes ++ nodes, selected := root.column.selected } } :: rest } } := by
    rw [Navigation.addRoots, Frontier.addRoots, show s.navigation.frontier.slots = root :: rest from hslots]
    rfl
  rw [hadd, roots_eq hslots]
  apply changesRoots_of_slots hslots hpopulated
  -- A row that is selected is there, so rows behind it do not matter.
  rcases h.holds_or_isOpen hslots with ⟨p, hholds⟩ | hopen
  · obtain ⟨node, hnode, -⟩ := hholds.selected
    obtain ⟨row, hrow, hget⟩ := Option.bind_eq_some_iff.mp hnode
    rw [hnode, Column.selectedNode?, hrow, Option.bind_some,
      List.getElem?_append_left (List.getElem?_eq_some_iff.mp hget).1, hget]
  · rw [Column.selectedNode?, Column.selectedNode?, hopen.selected]
    rfl

/-- A node that stays in a list is found again, or one of its number. -/
theorem selectedNode?_findIdx? {kept : List Node} {selected : Node} (hmem : selected ∈ kept) :
  (Column.selectedNode? ⟨kept, .populated, kept.findIdx? (·.same selected)⟩).map Node.number = some selected.number
  := by
  cases hrow : kept.findIdx? (·.same selected) with
  | none =>
    have hother := List.findIdx?_eq_none_iff.mp hrow selected hmem
    rw [Node.same, beq_self_eq_true] at hother
    cases hother
  | some row =>
    obtain ⟨hlt, hsame, -⟩ := List.findIdx?_eq_some_iff_getElem.mp hrow
    rw [Column.selectedNode?, Option.bind_some, List.getElem?_eq_getElem hlt, Option.map_some, beq_iff_eq.mp hsame]

/-- Rows are taken out of column 0, and the selected one is not among them. -/
theorem IsOrderly.changesRoots_removeRoots (h : s.IsOrderly) {nodes : List Node} (hloses : s.losesRoot nodes = false) :
  s.navigation.ChangesRoots (s.navigation.removeRoots nodes)
    (s.navigation.frontier.roots.filter (!Frontier.isAmong nodes ·))
  := by
  obtain ⟨root, rest, hslots, hpopulated⟩ := h.exists_root
  obtain ⟨row, hperform, hnone, hsome⟩ := perform_removeRoots_of_not_losesRoot hslots hloses
  have hremove : s.navigation.removeRoots nodes = _ := congrArg navigation hperform
  rw [hremove, roots_eq hslots]
  apply changesRoots_of_slots hslots hpopulated
  cases hselected : root.column.selectedNode? with
  | none =>
    rcases h.holds_or_isOpen hslots with ⟨p, hholds⟩ | hopen
    · obtain ⟨node, hnode, -⟩ := hholds.selected
      rw [hselected] at hnode
      cases hnode
    · rw [hnone hselected, hopen.selected]
      rfl
  | some selected =>
    obtain ⟨hkept, rfl⟩ := hsome selected hselected
    apply selectedNode?_findIdx?
    exact List.mem_filter.mpr ⟨Column.mem_of_selectedNode? hselected, by rw [hkept]; rfl⟩

/-- The selected root is taken out of column 0. -/
theorem IsAttended.clears (h : s.IsAttended) (horderly : s.IsOrderly) {nodes : List Node}
    (hloses : s.losesRoot nodes = true) :
  s.Clears (s.perform (.removeRoots nodes)) (s.navigation.frontier.roots.filter (!Frontier.isAmong nodes ·))
  := by
  obtain ⟨root, rest, hslots, hpopulated⟩ := horderly.exists_root
  have hcancels := cancelFrom_cancels 0 s.slots s.searches
  rw [perform_removeRoots_of_losesRoot hslots hloses, roots_eq hslots]
  constructor
  · rw [← hpopulated]
    rfl
  · rfl
  · refine ⟨rfl, fun x hx => ?_⟩
    have hmem := List.mem_map_of_mem (f := Prod.fst) hx
    refine ⟨h.unfinished _ hmem, ?_⟩
    -- No selection stands any more, so an expansion that is there was cancelled.
    rcases (h.take horderly (.refl _) hcancels).wanted _ hmem with hcancelled | ⟨p, hp, -⟩
    · exact hcancelled
    · cases hp
  · exact hcancels.handles

/-- In every session that can come about, roots that are added, or removed while the selected one stays, leave all other
columns, the path and the expansions as they are; with the selected one all selections are taken back and every
expansion that is not finished is cancelled. -/
theorem Reachable.keeps_unrelated {w : Workspace σ} {cacheSize : Nat} (hp : w.provider.SparesHandles)
    (h : Reachable w cacheSize s) (nodes : List Node) :
  s.navigation.ChangesRoots (s.navigation.addRoots nodes) (s.navigation.frontier.roots ++ nodes) ∧
    ((∀ root, s.navigation.frontier.path.head? = some root →
        ∀ node ∈ nodes, ¬ node.Coincides root) →
      s.navigation.ChangesRoots (s.navigation.removeRoots nodes)
        (s.navigation.frontier.roots.filter (!Frontier.isAmong nodes ·))) ∧
    ∀ root, s.navigation.frontier.path.head? = some root →
      (∃ node ∈ nodes, node.Coincides root) →
        (s.perform (.removeRoots nodes)).navigation = s.navigation.removeRoots nodes ∧
          s.Clears (s.perform (.removeRoots nodes))
            (s.navigation.frontier.roots.filter (!Frontier.isAmong nodes ·))
  := by
  have horderly := Reachable.isOrderly hp h
  refine ⟨horderly.changesRoots_addRoots nodes, ?_, ?_⟩
  · intro hunrelated
    apply horderly.changesRoots_removeRoots
    rw [losesRoot_eq, Bool.eq_false_iff]
    intro hloses
    obtain ⟨root, hroot, hamong⟩ := (Option.any_eq_true _ _).mp hloses
    obtain ⟨node, hnode, hmatches⟩ := Frontier.isAmong_iff.mp hamong
    exact hunrelated root hroot node hnode hmatches
  · intro root hroot hrelated
    refine ⟨rfl, (Reachable.isAttended hp h).clears horderly ?_⟩
    rw [losesRoot_eq, hroot, Option.any_some]
    exact Frontier.isAmong_iff.mpr hrelated

/-- A group without members. -/
def loner : Node :=
  .organizer 2 (.organizer "loner") [] []

/-- While the group is expanded the root before it goes and it is found again; then the group goes itself, and its
expansion is cancelled. -/
theorem Reachable.keeps_unrelated_of_group :
  ∃ s, Reachable blank 1 s ∧ s.tasks.map Prod.fst = [.root 0] ∧
    s.navigation.ChangesRoots (s.navigation.removeRoots [loner]) [group] ∧
    s.Clears (s.perform (.removeRoots [group])) [loner]
  := by
  have hselected : Reachable blank 1
      (((ofWorkspace blank 1).perform (.setRoots [loner, group])).perform (.select 0 1)) :=
    .tail (.single (.command _ _)) (.command _ _)
  refine ⟨_, hselected, rfl, ?_, ?_⟩
  · obtain ⟨-, hkept, -⟩ := Reachable.keeps_unrelated Scripted.provider_sparesHandles hselected [loner]
    refine hkept fun root hroot => ?_
    cases hroot
    decide
  · obtain ⟨-, -, hcleared⟩ := Reachable.keeps_unrelated Scripted.provider_sparesHandles hselected [group]
    exact (hcleared group rfl ⟨group, List.mem_singleton_self group, .inl rfl⟩).2

end Session

end CallGraph
