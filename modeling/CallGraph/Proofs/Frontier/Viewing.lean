import CallGraph.Proofs.Frontier.Interleaving
import CallGraph.Proofs.Frontier.Queued

/-!
# Rows shown in the order of their selection

One caller selects rows, one after another, while the highlight worker shows them and expansions go on as they like.
A selection has three sections: the row is chosen, its column is put into focus, which cancels the highlight before
it and makes a new one, and that one is handed to the worker.  The worker takes highlights up, loads their texts,
looks at their handles for the last time and delivers them, in any interleaving with the caller.  The sink hears of
rows in the order in which they were selected, at most once of each, and of the last one in the end.
-/

namespace CallGraph

variable {σ : Type}

/-- What the caller is in the middle of. -/
inductive Viewing.Phase where
  | idle
  /-- A node was chosen in a column that is not in focus yet. -/
  | chosen (column : Nat) (node : Node)
  /-- The highlight of a node is to be handed over under a handle. -/
  | focused (handle : Token) (node : Node)

/-- A session with one caller, which shows what is selected.  Records that no section reads are kept along. -/
structure Viewing (σ : Type) where
  session : Session σ
  phase : Viewing.Phase := .idle
  /-- The nodes selected so far, each with the handle of its highlight. -/
  selections : List (Token × Node) := []
  /-- What the sink was told, and the handle of the highlight that told it. -/
  told : List (Token × SinkEvent) := []
  /-- The files as each highlight found them. -/
  read : List (Token × FileTree) := []

/-- Whether two frontiers show the same by the same means. -/
structure Frontier.ShowsAlike (f f' : Frontier) : Prop where
  highlights : f'.highlights = f.highlights
  renders : f'.renders = f.renders
  highlighter : f'.highlighter = f.highlighter
  events : f'.events = f.events
  autoHighlight : f'.autoHighlight = f.autoHighlight

namespace Session

variable {s s' : Session σ}

/-- A change of a session that has nothing to do with what is shown, and cancels no handle. -/
structure Quiet (s s' : Session σ) : Prop
    extends Frontier.ShowsAlike s.navigation.frontier s'.navigation.frontier where
  cancelled : ∀ k, s'.searches.isCancelled (.root k) = s.searches.isCancelled (.root k)
  next : s.searches.signals.next ≤ s'.searches.signals.next

/-- Between commands the selections stand, and no slot changes but the last, which goes on to wait for the same. -/
theorem IsOrderly.slots_work (h : s.IsOrderly) (hwork : Work s s') :
  s'.standing = s.standing ∧
    ∃ change : Slot → Slot, (∀ slot, (change slot).pending = slot.pending) ∧
      s'.slots = s.slots.modify s.standing.length change
  := by
  refine ⟨hwork.keeps.1, ?_⟩
  have hsame (hslots : s'.slots = s.slots) : ∃ change : Slot → Slot,
      (∀ slot, (change slot).pending = slot.pending) ∧ s'.slots = s.slots.modify s.standing.length change := by
    refine ⟨id, fun _ => rfl, ?_⟩
    rw [hslots, List.modify_id]
  cases hwork.effect h.orderly.asideIssued with
  | aside tasks searches slots found => exact hsame slots
  | reply handle column r next others tasks tasks' searches shown slots found => exact hsame slots
  | finish handle e others tasks tasks' idle searches shown slots found => exact hsame slots
  | publish handle column nodes others tasks tasks' searches shown slots found =>
    rw [Frontier.publish] at slots
    cases hcancelled : s.searches.isCancelled handle with
    | true =>
      rw [hcancelled] at slots
      exact hsame slots
    | false =>
      -- What is published goes to the column that waits for it, which is the last one.
      have hlast := (h.orderly.perm tasks).column_eq_last List.mem_cons_self (isSearching column _) hcancelled
      have hlast : column + 1 = s.standing.length := hlast.1
      refine ⟨fun slot => { slot with column := .populated nodes }, fun _ => rfl, ?_⟩
      rw [slots, hcancelled, ← hlast]
      rfl

end Session

namespace Viewing

/-! ### What caller and worker do -/

/-- The highlight that the caller has in hand. -/
def Phase.inHand : Phase → List (Token × Highlight)
  | .focused handle node => [(handle, { element := node.element })]
  | _ => []

/-- The frontier. -/
def frontier (v : Viewing σ) : Frontier :=
  v.session.navigation.frontier

/-- The highlights that are under way, waiting, or in the caller's hand. -/
def shows (v : Viewing σ) : List (Token × Highlight) :=
  v.frontier.renders.running.toList ++ v.frontier.renders.waiting ++ v.phase.inHand

/-- A row is chosen. -/
def choose (v : Viewing σ) (column row : Nat) (node : Node) : Viewing σ :=
  { v with session := v.session.perform (.select column row), phase := .chosen column node }

/-- The column of a node that was chosen is put into focus. -/
def focus (v : Viewing σ) (column : Nat) (node : Node) : Viewing σ :=
  let (handle, shown, navigation) := v.session.navigation.refocus column
  { v with
    session := { v.session with navigation }
    phase := match shown with
      | some node => .focused handle node
      | none => .idle
    selections := v.selections ++ [(handle, node)] }

/-- The configuration is read and a highlight is handed to the worker. -/
def handOver (v : Viewing σ) (handle : Token) (node : Node) : Viewing σ :=
  { v with
    session := { v.session with
      navigation :=
        ⟨v.session.navigation.workspace.getConfig.2,
          { v.frontier with renders := v.frontier.renders.submit handle { element := node.element } }⟩ }
    phase := .idle }

/-- What the worker is about to tell the sink. -/
def delivering (v : Viewing σ) : List (Token × SinkEvent) :=
  match v.frontier.renders.running with
  | some (handle, ⟨_, .checked event⟩) => [(handle, event)]
  | _ => []

/-- The files that the worker is about to look into. -/
def reading (v : Viewing σ) : List (Token × FileTree) :=
  match v.frontier.renders.running with
  | some (handle, ⟨_, .queued⟩) => [(handle, v.session.navigation.workspace.files)]
  | _ => []

/-- The highlight worker makes a step. -/
def render (v : Viewing σ) : Viewing σ :=
  { v with
    session := { v.session with navigation := v.session.navigation.stepRender }
    told := v.told ++ v.delivering
    read := v.read ++ v.reading }

/-- A step of the caller or of the highlight worker, or one that has nothing to do with what is shown. -/
inductive Step : Viewing σ → Viewing σ → Prop where
  /-- The caller changes the roots. -/
  | setRoots (v : Viewing σ) (idle : v.phase = .idle) (nodes : List Node) :
      Step v { v with session := v.session.perform (.setRoots nodes) }
  | addRoots (v : Viewing σ) (idle : v.phase = .idle) (nodes : List Node) :
      Step v { v with session := v.session.perform (.addRoots nodes) }
  | removeRoots (v : Viewing σ) (idle : v.phase = .idle) (nodes : List Node) :
      Step v { v with session := v.session.perform (.removeRoots nodes) }
  /-- The caller selects a row, and there is one. -/
  | choose (v : Viewing σ) (idle : v.phase = .idle) (column row : Nat) (node : Node)
      (rest : Token × Expansion × Navigation σ)
      (chosen : v.session.navigation.choose column row = .ok (node, rest)) :
      Step v (v.choose column row node)
  | focus (v : Viewing σ) (column : Nat) (node : Node) (chosen : v.phase = .chosen column node) :
      Step v (v.focus column node)
  | handOver (v : Viewing σ) (handle : Token) (node : Node) (focused : v.phase = .focused handle node)
      (multithreading : v.session.navigation.workspace.getConfig.1.multithreading = true) :
      Step v (v.handOver handle node)
  | render (v : Viewing σ) :
      Step v v.render
  | work (v : Viewing σ) (s' : Session σ) (work : Session.Work v.session s') (quiet : v.session.Quiet s') :
      Step v { v with session := s' }
  /-- Others change the workspace and do not reach the handles of tasks. -/
  | elsewhere (v : Viewing σ) (workspace : Workspace σ)
      (provider : workspace.provider = v.session.navigation.workspace.provider)
      (spares : v.session.searches.Spares workspace.searches) :
      Step v
        { v with session := { v.session with navigation := { v.session.navigation with workspace } } }

/-- Whether a viewing can come about from a new navigation over a workspace. -/
def Reachable (w : Workspace σ) (cacheSize : Nat) : Viewing σ → Prop :=
  Relation.ReflTransGen Step { session := .ofWorkspace w cacheSize }

/-! ### The invariant -/

/-- The invariant of a viewing. -/
structure IsInOrder (v : Viewing σ) : Prop where
  orderly : v.session.IsOrderly
  auto : v.frontier.autoHighlight = true
  cached : v.frontier.highlighter.cache.Holds fun _ _ => True
  events : v.frontier.events = v.told.map Prod.snd
  highlights : v.frontier.highlights = (v.selections.getLast?.map Prod.fst).toList
  queued : Queued v.selections v.told v.shows v.read v.session.searches
  /-- No slot waits for an expansion under the handle of a highlight. -/
  apart : ∀ p ∈ pendings v.session.slots, p.handle ∉ v.selections.map Prod.fst
  /-- A highlight in the caller's hand was not superseded. -/
  focused : ∀ handle node, v.phase = .focused handle node → handle ∈ v.frontier.highlights
  /-- A node that was chosen is the selected one of its column, which has its rows. -/
  chosen : ∀ column node, v.phase = .chosen column node → column < v.session.standing.length ∧
    (v.frontier.column? column).bind Column.selectedNode? = some node

variable {v v' : Viewing σ}

/-- A session that shows the same and in which handles of highlights are cancelled as before. -/
theorem IsInOrder.congr (h : v.IsInOrder) {s' : Session σ} (horderly : s'.IsOrderly)
    (halike : v.frontier.ShowsAlike s'.navigation.frontier)
    (hcancelled : ∀ x ∈ v.selections, s'.searches.isCancelled x.1 = v.session.searches.isCancelled x.1)
    (hnext : v.session.searches.signals.next ≤ s'.searches.signals.next)
    (hapart : ∀ p ∈ pendings s'.slots, p.handle ∉ v.selections.map Prod.fst)
    (hchosen : ∀ column node, v.phase = .chosen column node → column < s'.standing.length ∧
      (s'.navigation.frontier.column? column).bind Column.selectedNode? = some node) :
  IsInOrder { v with session := s' }
  where
  orderly := horderly
  auto := halike.autoHighlight.trans h.auto
  cached := by
    change s'.navigation.frontier.highlighter.cache.Holds _
    rw [halike.highlighter]
    exact h.cached
  events := halike.events.trans h.events
  highlights := halike.highlights.trans h.highlights
  queued := by
    have hshows : shows { v with session := s' } = v.shows := by
      simp only [shows, frontier, halike.renders]
    rw [hshows]
    apply h.queued.congr hcancelled hnext
  apart := hapart
  focused handle node hphase := by
    change handle ∈ s'.navigation.frontier.highlights
    rw [halike.highlights]
    exact h.focused handle node hphase
  chosen := hchosen

/-- Handles of highlights are roots. -/
theorem IsInOrder.exists_root (h : v.IsInOrder) {x : Token × Node} (hx : x ∈ v.selections) :
  ∃ k, x.1 = .root k
  := by
  obtain ⟨k, -, heq⟩ := h.queued.issued x hx
  exact ⟨k, heq⟩

/-- Cancelling expansions cancels no highlight. -/
theorem IsInOrder.isCancelled_of_cancels (h : v.IsInOrder) {c c' : Searches} (hc : c.Sound)
    (hsame : ∀ t, c.isCancelled t = v.session.searches.isCancelled t) {index : Nat}
    (hcancels : c.Cancels (pendings (v.session.slots.drop index)) c') {x : Token × Node} (hx : x ∈ v.selections) :
  c'.isCancelled x.1 = v.session.searches.isCancelled x.1
  := by
  rw [← hsame, Bool.eq_iff_iff]
  refine ⟨fun hcancelled => ?_, hcancels.keeps x.1⟩
  obtain ⟨k, heq⟩ := h.exists_root hx
  rcases hcancels.only x.1 hcancelled with hcancelled | ⟨p, hp, -, hcovers | ⟨u, hu, hcovers⟩⟩
  · exact hcancelled
  · rw [heq, Token.covers_root_iff, ← heq] at hcovers
    have hmem : p ∈ pendings v.session.slots := by
      obtain ⟨slot, hslot, hpending⟩ := List.mem_filterMap.mp hp
      exact List.mem_filterMap.mpr ⟨slot, List.mem_of_mem_drop hslot, hpending⟩
    exact absurd (hcovers ▸ List.mem_map_of_mem hx) (h.apart p hmem)
  · rw [heq, Token.covers_root_iff] at hcovers
    exact absurd (hcovers ▸ hu) (hc.live k)

/-! ### Steps that show nothing -/

/-- The expansions that slots wait for do not change with the last column. -/
theorem pendings_modify (slots : List Slot) (index : Nat) {change : Slot → Slot}
    (hchange : ∀ slot, (change slot).pending = slot.pending) :
  pendings (slots.modify index change) = pendings slots
  := by
  induction slots generalizing index with
  | nil => cases index <;> rfl
  | cons slot slots ih =>
      cases index with
      | zero =>
          change pendings (change slot :: slots) = pendings (slot :: slots)
          rw [pendings, pendings, List.filterMap_cons, List.filterMap_cons, hchange]
      | succ index =>
          have hrest : (slots.modify index change).filterMap (·.pending) = slots.filterMap (·.pending) := ih index
          change pendings (slot :: slots.modify index change) = pendings (slot :: slots)
          rw [pendings, pendings, List.filterMap_cons, List.filterMap_cons, hrest]

/-- What goes on between commands and has nothing to do with what is shown. -/
theorem IsInOrder.work (h : v.IsInOrder) {s' : Session σ} (hwork : Session.Work v.session s')
    (hquiet : v.session.Quiet s') :
  IsInOrder { v with session := s' }
  := by
  obtain ⟨hstanding, change, hchange, hslots⟩ := h.orderly.slots_work hwork
  apply h.congr (h.orderly.work hwork) hquiet.toShowsAlike
  · intro x hx
    obtain ⟨k, heq⟩ := h.exists_root hx
    rw [heq, hquiet.cancelled]
  · apply hquiet.next
  · rw [hslots, pendings_modify _ _ hchange]
    apply h.apart
  · intro column node hphase
    obtain ⟨hlt, hnode⟩ := h.chosen column node hphase
    refine ⟨hstanding ▸ hlt, ?_⟩
    have hcolumn : s'.navigation.frontier.column? column = v.frontier.column? column := by
      change s'.slots[column]?.map _ = v.session.slots[column]?.map _
      rw [hslots, List.getElem?_modify_ne _ _ (Nat.ne_of_gt hlt)]
    rw [hcolumn]
    apply hnode

/-- Others change the workspace. -/
theorem IsInOrder.elsewhere (h : v.IsInOrder) {workspace : Workspace σ}
    (provider : workspace.provider = v.session.navigation.workspace.provider)
    (spares : v.session.searches.Spares workspace.searches) :
  IsInOrder { v with session := { v.session with navigation := { v.session.navigation with workspace } } }
  := by
  apply h.congr (h.orderly.step (.elsewhere v.session workspace provider spares)) ⟨rfl, rfl, rfl, rfl, rfl⟩
  · intro x hx
    obtain ⟨k, heq⟩ := h.exists_root hx
    rw [heq]
    apply spares.cancelled
  · apply spares.next
  · apply h.apart
  · apply h.chosen

/-! ### Commands -/

/-- What a command does to the searches and to what slots wait for: it gives out a handle at most, cancels
expansions that slots wait for, and lets slots wait for nothing new but an expansion under that handle. -/
structure Frees (s s' : Session σ) : Prop where
  alike : s.navigation.frontier.ShowsAlike s'.navigation.frontier
  cancels : ∃ c index, (c = s.searches ∨ c = { s.searches with signals := s.searches.signals.fresh.2 }) ∧
    c.Cancels (pendings (s.slots.drop index)) s'.searches
  waits : ∀ p ∈ pendings s'.slots, p ∈ pendings s.slots ∨ p.handle = .root s.searches.signals.next

/-- A change of the columns that cancels nothing. -/
theorem Frees.of_searches_eq {s s' : Session σ} (halike : s.navigation.frontier.ShowsAlike s'.navigation.frontier)
    (hsearches : s'.searches = s.searches) (hwaits : ∀ p ∈ pendings s'.slots, p ∈ pendings s.slots) :
  Frees s s'
  where
  alike := halike
  cancels := by
    refine ⟨s.searches, s.slots.length, .inl rfl, ?_⟩
    rw [List.drop_length, hsearches]
    apply Searches.Cancels.nil
  waits p hp := .inl (hwaits p hp)

/-- Cancelling all expansions that slots wait for. -/
theorem Frees.of_cancelFrom {s s' : Session σ} (halike : s.navigation.frontier.ShowsAlike s'.navigation.frontier)
    (hsearches : s'.searches = (cancelFrom 0 s.slots s.searches).2) (hwaits : pendings s'.slots = []) :
  Frees s s'
  where
  alike := halike
  cancels := by
    refine ⟨s.searches, 0, .inl rfl, ?_⟩
    rw [hsearches]
    apply cancelFrom_cancels
  waits p hp := by
    rw [hwaits] at hp
    cases hp

/-- Replacing the roots. -/
theorem frees_setRoots (s : Session σ) (nodes : List Node) :
  Frees s (s.perform (.setRoots nodes))
  := by
  exact .of_cancelFrom ⟨rfl, rfl, rfl, rfl, rfl⟩ rfl rfl

/-- Adding roots. -/
theorem frees_addRoots {s : Session σ} (h : s.IsOrderly) (nodes : List Node) :
  Frees s (s.perform (.addRoots nodes))
  := by
  obtain ⟨slot, rest, hslots, -⟩ := h.exists_root
  refine .of_searches_eq ⟨rfl, rfl, rfl, rfl, rfl⟩ rfl ?_
  have hslots' : (s.perform (.addRoots nodes)).slots =
      { slot with column := { slot.column with nodes := slot.column.nodes ++ nodes } } :: rest := by
    change s.slots.modifyHead _ = _
    rw [hslots]
    rfl
  rw [hslots', hslots]
  exact fun _ => id

/-- Removing roots. -/
theorem frees_removeRoots {s : Session σ} (h : s.IsOrderly) (nodes : List Node) :
  Frees s (s.perform (.removeRoots nodes))
  := by
  obtain ⟨slot, rest, hslots, -⟩ := h.exists_root
  have hslots' : s.navigation.frontier.slots = slot :: rest := hslots
  simp only [Session.perform, Navigation.removeRoots, Frontier.removeRoots, hslots']
  split
  case h_1 =>
    refine .of_searches_eq ⟨rfl, rfl, rfl, rfl, rfl⟩ rfl ?_
    rw [hslots]
    exact fun _ => id
  case h_2 =>
    split
    case isTrue =>
      refine .of_cancelFrom ⟨rfl, rfl, rfl, rfl, rfl⟩ ?_ rfl
      rw [hslots]
      rfl
    case isFalse =>
      refine .of_searches_eq ⟨rfl, rfl, rfl, rfl, rfl⟩ rfl ?_
      rw [hslots]
      exact fun _ => id

/-- What choosing a row comes to. -/
theorem of_choose {s : Session σ} {column row : Nat} {node : Node} {rest : Token × Expansion × Navigation σ}
    (h : s.navigation.choose column row = .ok (node, rest)) :
  ∃ slot, s.slots[column]? = some slot ∧ slot.column.nodes[row]? = some node ∧
    (s.perform (.select column row)).slots = s.slots.take column ++
      [⟨{ slot.column with selected := some row }, some ⟨.root s.searches.signals.next, node⟩⟩, .populating] ∧
    (s.perform (.select column row)).standing.length = (s.standing.take column).length + 1 ∧
    (s.perform (.select column row)).searches =
      (cancelFrom column s.slots { s.searches with signals := s.searches.signals.fresh.2 }).2 ∧
    s.navigation.frontier.ShowsAlike (s.perform (.select column row)).navigation.frontier
  := by
  cases hslot : s.navigation.frontier.slots[column]? with
  | none =>
      simp only [Navigation.choose, Frontier.choose, hslot] at h
      cases h
  | some slot =>
      cases hnode : slot.column.nodes[row]? with
      | none =>
          simp only [Navigation.choose, Frontier.choose, hslot, hnode] at h
          cases h
      | some chosen =>
          simp only [Navigation.choose, Frontier.choose, hslot, hnode] at h
          cases h
          refine ⟨slot, hslot, hnode, ?_⟩
          simp only [Session.perform, Navigation.choose, Frontier.choose, hslot, hnode, cancelFrom_take]
          refine ⟨rfl, ?_, rfl, rfl, rfl, rfl, rfl, rfl⟩
          rw [List.length_append, List.length_singleton]

/-- Selecting a row. -/
theorem frees_select {s : Session σ} {column row : Nat} {node : Node} {rest : Token × Expansion × Navigation σ}
    (h : s.navigation.choose column row = .ok (node, rest)) :
  Frees s (s.perform (.select column row))
  := by
  obtain ⟨slot, hslot, hnode, hslots, -, hsearches, halike⟩ := of_choose h
  refine ⟨halike, ⟨_, column, .inr rfl, ?_⟩, fun p hp => ?_⟩
  · rw [hsearches]
    apply cancelFrom_cancels
  · rw [hslots, pendings, List.filterMap_append, List.mem_append] at hp
    rcases hp with hp | hp
    · left
      obtain ⟨slot', hslot', hpending⟩ := List.mem_filterMap.mp hp
      exact List.mem_filterMap.mpr ⟨slot', List.mem_of_mem_take hslot', hpending⟩
    · right
      cases List.mem_singleton.mp hp
      rfl

/-- Commands keep what is shown in order while the caller is in the middle of nothing. -/
theorem IsInOrder.frees (h : v.IsInOrder) {s' : Session σ} (hidle : v.phase = .idle) (horderly : s'.IsOrderly)
    (hfrees : Frees v.session s') :
  IsInOrder { v with session := s' }
  := by
  obtain ⟨c, index, hc, hcancels⟩ := hfrees.cancels
  have hsound : c.Sound := by
    rcases hc with rfl | rfl
    · exact h.orderly.orderly.sound
    · exact h.orderly.orderly.sound.spare (Searches.spares_fresh _)
  have hsame : ∀ t, c.isCancelled t = v.session.searches.isCancelled t := by
    rcases hc with rfl | rfl
    · exact fun _ => rfl
    · exact v.session.searches.signals.isCancelled_fresh
  apply h.congr horderly hfrees.alike
  · exact fun x hx => h.isCancelled_of_cancels hsound hsame hcancels hx
  · rw [hcancels.next]
    rcases hc with rfl | rfl
    · apply Nat.le_refl
    · apply Nat.le_succ
  · intro p hp hmem
    rcases hfrees.waits p hp with hp | hnext
    · apply h.apart p hp hmem
    · rw [hnext] at hmem
      apply Searches.next_not_mem_map h.queued.issued hmem
  · intro column node hphase
    rw [hidle] at hphase
    cases hphase

/-! ### Selecting -/

/-- A row is chosen. -/
theorem IsInOrder.choose (h : v.IsInOrder) (hidle : v.phase = .idle) {column row : Nat} {node : Node}
    {rest : Token × Expansion × Navigation σ} (hchosen : v.session.navigation.choose column row = .ok (node, rest)) :
  (v.choose column row node).IsInOrder
  := by
  have hafter := h.frees hidle (h.orderly.select column row) (frees_select hchosen)
  obtain ⟨slot, hslot, hnode, hslots, hlength, -⟩ := of_choose hchosen
  have hshows : (v.choose column row node).shows =
      shows { v with session := v.session.perform (.select column row) } := by
    simp only [shows, Viewing.choose, hidle]
    rfl
  have hcolumn : column < v.session.slots.length := (List.getElem?_eq_some_iff.mp hslot).1
  refine ⟨hafter.orderly, hafter.auto, hafter.cached, hafter.events, hafter.highlights, ?_, hafter.apart, nofun, ?_⟩
  · rw [hshows]
    exact hafter.queued
  · intro column' node' hphase
    cases hphase
    constructor
    · have hstanding := h.orderly.orderly.lined.length
      change _ < (v.session.perform (.select column row)).standing.length
      rw [hlength, List.length_take_of_le (by omega)]
      apply Nat.lt_succ_self
    · have hat : (v.session.perform (.select column row)).slots[column]? =
          some ⟨{ slot.column with selected := some row }, some ⟨.root v.session.searches.signals.next, node⟩⟩ := by
        rw [hslots, List.getElem?_append_right (List.length_take_le _ _),
          List.length_take_of_le (Nat.le_of_lt hcolumn), Nat.sub_self]
        rfl
      change ((v.session.perform (.select column row)).slots[column]?.map _).bind _ = _
      rw [hat]
      exact hnode

/-- A column is put into focus, and its selected row is to be shown under a new handle. -/
theorem refocus_of_selected {n : Navigation σ} {column : Nat} {node : Node} (hauto : n.frontier.autoHighlight = true)
    (hnode : (n.frontier.column? column).bind Column.selectedNode? = some node) :
  n.refocus column =
    (.root n.workspace.searches.signals.next, some node,
      ⟨{ n.workspace with
          searches := n.frontier.highlights.foldl Searches.cancel
            { n.workspace.searches with signals := n.workspace.searches.signals.fresh.2 } },
        { n.frontier with focus := some column, highlights := [.root n.workspace.searches.signals.next] }⟩)
  := by
  obtain ⟨workspace, slots, highlights, _, autoHighlight⟩ := n
  cases (hauto : autoHighlight = true)
  simp only [Frontier.column?] at hnode
  simp only [Navigation.refocus, Frontier.refocus, if_true, Frontier.column?, hnode]
  rfl

/-- The column of the chosen node is put into focus. -/
theorem IsInOrder.focus (h : v.IsInOrder) {column : Nat} {node : Node} (hphase : v.phase = .chosen column node) :
  (v.focus column node).IsInOrder
  := by
  have hrefocus := refocus_of_selected (n := v.session.navigation) h.auto (h.chosen column node hphase).2
  have hshown := (Shows.refocus v.session.navigation column).1
  rw [hrefocus] at hshown
  have horderly := h.orderly.shows hshown
  have hqueued := h.queued.refocus h.orderly.orderly.sound node
  have hinHand : v.phase.inHand = [] := by rw [hphase]; rfl
  rw [← h.highlights, shows, hinHand, List.append_nil] at hqueued
  simp only [Viewing.focus, hrefocus]
  refine ⟨horderly, h.auto, h.cached, h.events, ?_, hqueued, ?_, ?_, nofun⟩
  · rw [List.getLast?_concat]
    rfl
  · intro p hp hmem
    rw [List.map_append, List.mem_append] at hmem
    rcases hmem with hmem | hmem
    · apply h.apart p hp hmem
    · have hissued : v.session.searches.Issued p.handle := by
        apply h.orderly.orderly.pendings_issued
        rw [List.drop_zero]
        exact hp
      rw [List.mem_singleton.mp hmem] at hissued
      apply v.session.searches.not_issued_next hissued
  · intro handle node' heq
    cases heq
    apply List.mem_cons_self

/-- A highlight is handed to the worker. -/
theorem IsInOrder.handOver (h : v.IsInOrder) {handle : Token} {node : Node}
    (hphase : v.phase = .focused handle node) :
  (v.handOver handle node).IsInOrder
  := by
  have hmem : handle ∈ v.frontier.shown := List.mem_append_left _ (h.focused handle node hphase)
  have hshown := (Shows.configure v.session.navigation).trans
    (Shows.submitRender (n := ⟨v.session.navigation.workspace.getConfig.2, v.frontier⟩) hmem
      { element := node.element })
  have hshows : (v.handOver handle node).shows = v.shows := by
    simp only [shows, hphase, Viewing.handOver, Phase.inHand, List.append_nil, List.append_assoc]
    rfl
  refine ⟨h.orderly.shows hshown, h.auto, h.cached, h.events, h.highlights, ?_, h.apart, nofun, nofun⟩
  rw [hshows]
  exact h.queued

/-! ### The highlight worker -/

/-- A step of the highlight worker changes neither columns nor the handles of highlights. -/
theorem IsInOrder.stepped (h : v.IsInOrder) {n : Navigation σ} {told : List (Token × SinkEvent)}
    {read : List (Token × FileTree)} (hn : v.session.navigation.stepRender = n) (htold : v.delivering = told)
    (hread : v.reading = read) (hcached : n.frontier.highlighter.cache.Holds fun _ _ => True)
    (hevents : n.frontier.events = (v.told ++ told).map Prod.snd)
    (hhighlights : n.frontier.highlights = v.frontier.highlights)
    (hauto : n.frontier.autoHighlight = v.frontier.autoHighlight)
    (hqueued : Queued v.selections (v.told ++ told)
      (n.frontier.renders.running.toList ++ n.frontier.renders.waiting ++ v.phase.inHand) (v.read ++ read)
      n.workspace.searches) :
  v.render.IsInOrder
  := by
  have hshown := Shows.stepRender v.session.navigation
  have horderly := h.orderly.shows hshown
  rw [hn] at hshown horderly
  rw [Viewing.render, hn, htold, hread]
  refine ⟨horderly, hauto.trans h.auto, hcached, hevents, hhighlights.trans h.highlights, hqueued, ?_, ?_, ?_⟩
  · intro p hp
    apply h.apart
    rw [Session.slots, hshown.slots] at hp
    apply hp
  · intro handle node hphase
    change handle ∈ n.frontier.highlights
    rw [hhighlights]
    apply h.focused handle node hphase
  · intro column node hphase
    obtain ⟨hlt, hnode⟩ := h.chosen column node hphase
    use hlt
    change (n.frontier.slots[column]?.map _).bind _ = _
    rw [hshown.slots]
    apply hnode

/-- The highlight worker takes up the next highlight, or skips it. -/
theorem IsInOrder.renderNext (h : v.IsInOrder) (hrunning : v.session.navigation.frontier.renders.running = none) :
  v.render.IsInOrder
  := by
  have hqueued := h.queued
  have htold : v.delivering = [] := by simp only [delivering, frontier, hrunning]
  have hread : v.reading = [] := by simp only [reading, frontier, hrunning]
  have hevents : v.frontier.events = (v.told ++ []).map Prod.snd := by
    rw [List.append_nil]
    apply h.events
  cases hwaiting : v.session.navigation.frontier.renders.waiting with
  | nil =>
      have hrender : v.render = v := by
        simp only [Viewing.render, Navigation.stepRender_of_nil hrunning hwaiting, htold, hread, List.append_nil]
      rw [hrender]
      apply h
  | cons first rest =>
      obtain ⟨handle, highlight⟩ := first
      simp only [shows, frontier, hrunning, hwaiting, Option.toList_none, List.nil_append, List.cons_append] at hqueued
      cases hcancelled : v.session.searches.isCancelled handle with
      | true =>
          have hskipped := (hqueued.skip hcancelled).finish handle
          apply h.stepped (Navigation.stepRender_of_cancelled hrunning hwaiting hcancelled) htold hread h.cached hevents
            rfl rfl
          rw [List.append_nil, List.append_nil, hrunning]
          exact hskipped
      | false =>
          apply h.stepped (Navigation.stepRender_of_uncancelled hrunning hwaiting hcancelled) htold hread h.cached
            hevents rfl rfl
          rw [List.append_nil, List.append_nil]
          exact hqueued

/-- The highlight worker goes on with the highlight it runs. -/
theorem IsInOrder.renderOn (h : v.IsInOrder) {handle : Token} {highlight : Highlight}
    (hrunning : v.session.navigation.frontier.renders.running = some (handle, highlight)) :
  v.render.IsInOrder
  := by
  have hqueued := h.queued
  have hevents : v.frontier.events = (v.told ++ []).map Prod.snd := by
    rw [List.append_nil]
    apply h.events
  obtain ⟨element, stage⟩ := highlight
  simp only [shows, frontier, hrunning, Option.toList_some, List.cons_append, List.nil_append] at hqueued
  cases stage with
  | queued =>
      have htold : v.delivering = [] := by simp only [delivering, frontier, hrunning]
      have hread : v.reading = [(handle, v.session.navigation.workspace.files)] := by
        simp only [reading, frontier, hrunning]
      obtain ⟨htells, hcached⟩ := Highlighter.tells_load h.cached v.session.navigation.workspace.files element
      apply h.stepped (Navigation.stepRender_of_queued hrunning) htold hread hcached hevents rfl rfl
      dsimp only
      rw [TaskStream.running_resume hrunning, List.append_nil]
      apply hqueued.resume
      · exact fun x hx => List.mem_append_left _ hx
      · exact fun _ => ⟨_, List.mem_append_right _ List.mem_cons_self, .inl htells⟩
  | loaded event =>
      have htold : v.delivering = [] := by simp only [delivering, frontier, hrunning]
      have hread : v.reading = [] := by simp only [reading, frontier, hrunning]
      apply h.stepped (Navigation.stepRender_of_loaded hrunning) htold hread h.cached hevents rfl rfl
      dsimp only
      rw [TaskStream.running_resume hrunning, List.append_nil, List.append_nil]
      apply hqueued.resume
      · exact fun _ => id
      · exact fun hdue => hdue.check
  | checked event =>
      have htold : v.delivering = [(handle, event)] := by simp only [delivering, frontier, hrunning]
      have hread : v.reading = [] := by simp only [reading, frontier, hrunning]
      apply h.stepped (Navigation.stepRender_of_checked hrunning) htold hread _ _ rfl rfl
      · have hdelivered := hqueued.deliver.finish handle
        rw [List.append_nil]
        exact hdelivered
      · cases event with
        | render reuse text span => exact h.cached
        | reset => exact h.cached
      · rw [List.map_append]
        apply congrArg (· ++ [event]) h.events

/-- A step keeps what is shown in order. -/
theorem IsInOrder.step (h : v.IsInOrder) (hstep : Step v v') :
  v'.IsInOrder
  := by
  cases hstep with
  | setRoots idle nodes => apply h.frees idle (h.orderly.setRoots nodes) (frees_setRoots _ nodes)
  | addRoots idle nodes => apply h.frees idle (h.orderly.addRoots nodes) (frees_addRoots h.orderly nodes)
  | removeRoots idle nodes => apply h.frees idle (h.orderly.removeRoots nodes) (frees_removeRoots h.orderly nodes)
  | choose idle column row node rest chosen => apply h.choose idle chosen
  | focus column node chosen => apply h.focus chosen
  | handOver handle node focused multithreading => apply h.handOver focused
  | render =>
      cases hrunning : v.session.navigation.frontier.renders.running with
      | none => apply h.renderNext hrunning
      | some running => apply h.renderOn hrunning
  | work s' work quiet => apply h.work work quiet
  | elsewhere workspace provider spares => apply h.elsewhere provider spares

/-- What a new navigation shows is in order. -/
theorem IsInOrder.ofWorkspace {w : Workspace σ} (hp : w.provider.SparesHandles) (cacheSize : Nat) :
  IsInOrder ({ session := .ofWorkspace w cacheSize } : Viewing σ)
  where
  orderly := .ofWorkspace hp cacheSize
  auto := rfl
  cached := Recency.holds_empty _ _
  events := rfl
  highlights := rfl
  queued := .empty _
  apart := nofun
  focused := nofun
  chosen := nofun

/-- What is shown is in order in every viewing that can come about. -/
theorem Reachable.isInOrder {w : Workspace σ} {cacheSize : Nat} (hp : w.provider.SparesHandles)
    (h : Reachable w cacheSize v) :
  v.IsInOrder
  := by
  induction h with
  | refl => exact .ofWorkspace hp cacheSize
  | tail _ hstep ih => apply ih.step hstep

/-- What the sink hears of the rows that were selected. -/
structure TellsInOrder (v : Viewing σ) : Prop where
  /-- It hears what highlights tell. -/
  events : v.frontier.events = v.told.map Prod.snd
  /-- Every selection has a highlight of its own. -/
  distinct : (v.selections.map Prod.fst).Nodup
  /-- Highlights tell something in the order of the selections, and at most once. -/
  ordered : (v.told.map Prod.fst).Sublist (v.selections.map Prod.fst)
  /-- A highlight tells what there is to show of its selection, or resets the sink because it was cancelled. -/
  due : ∀ x ∈ v.told, ∃ node, (x.1, node) ∈ v.selections ∧
    x.2.IsDue v.read v.session.searches x.1 node.element
  /-- When the caller is in the middle of nothing and no highlight is left, the last event is that of the last
  selection: the stretch to mark, or, if there is no file that can be read, that there is nothing to show. -/
  last : v.phase = .idle → v.frontier.renders.isIdle = true → ∀ handle node,
    v.selections.getLast? = some (handle, node) → ∃ event files,
      v.told.getLast? = some (handle, event) ∧ (handle, files) ∈ v.read ∧ event.Tells files node.element

/-- In every interleaving of a caller that selects rows with the highlight worker, the sink hears of rows in the order
of their selection, at most once of each, and of the last one in the end. -/
theorem Reachable.tellsInOrder {w : Workspace σ} {cacheSize : Nat} (hp : w.provider.SparesHandles)
    (h : Reachable w cacheSize v) :
  v.TellsInOrder
  := by
  have horder := h.isInOrder hp
  have hqueued := horder.queued
  constructor
  case events => apply horder.events
  case distinct => apply hqueued.nodup
  case ordered => apply (List.sublist_append_left _ _).trans hqueued.ordered
  case due => apply hqueued.told
  case last =>
    intro hphase hidle handle node hlast
    have hshows : v.shows = [] := by
      rw [TaskStream.isIdle, Bool.and_eq_true, List.isEmpty_iff, Option.isNone_iff_eq_none] at hidle
      rw [shows, hidle.1, hidle.2, hphase]
      rfl
    rw [hshows] at hqueued
    apply hqueued.last_told hlast

/-- A file of two calls. -/
def calls : FileTree :=
  { entries := [(["tmp"], .directory), (["tmp", "w"], .directory),
      (["tmp", "w", "a.py"], .file "f()\ng()\n".toUTF8 1)] }

/-- A call in a line of the file. -/
def call (line : UInt32) : Node :=
  .analyzed line.toNat
    { definition := none
      element :=
        { name := "f", kind := "function", module := "m", role := .child, path := none
          callPosition := ⟨some ⟨"/tmp/w/a.py"⟩, ⟨some line, some 0⟩, ⟨some line, some 1⟩⟩
          start := .unknown, stop := .unknown } }

/-- A workspace that runs highlights on their worker. -/
def workshop : Workspace Scripted :=
  { provider := Scripted.provider, analysis := {}, files := calls
    config := { overrides := { multithreading := some true } } }

/-- The second call is selected while the highlight of the first loads its text: that one resets the sink, and the
last event is the one of the second call. -/
theorem Reachable.tellsInOrder_of_overtaken :
  ∃ v, Reachable workshop 1 v ∧ v.phase = .idle ∧ v.frontier.renders.isIdle = true ∧
    v.selections.map Prod.snd = [call 1, call 2] ∧
    (v.frontier.events == [.reset, .render false "f()\ng()\n" (call 2).element.callPosition]) = true ∧
    v.TellsInOrder
  := by
  have hrooted : Reachable workshop 1 _ := .single (.setRoots _ rfl [call 1, call 2])
  have hchosen := hrooted.tail (.choose _ rfl 0 0 (call 1) _ rfl)
  have hfocused := hchosen.tail (.focus _ 0 (call 1) rfl)
  have hloaded := ((hfocused.tail (.handOver _ _ (call 1) rfl rfl)).tail (.render _)).tail (.render _)
  have hovertaken := (hloaded.tail (.choose _ rfl 0 1 (call 2) _ rfl)).tail (.focus _ 0 (call 2) rfl)
  have hdelivered := (hovertaken.tail (.render _)).tail (.render _)
  have hstarted := (hdelivered.tail (.handOver _ _ (call 2) rfl rfl)).tail (.render _)
  have hshown := ((hstarted.tail (.render _)).tail (.render _)).tail (.render _)
  exact ⟨_, hshown, rfl, rfl, rfl, by decide +kernel, Reachable.tellsInOrder Scripted.provider_sparesHandles hshown⟩

end Viewing

end CallGraph
