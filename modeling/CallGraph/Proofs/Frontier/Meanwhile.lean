import CallGraph.Proofs.Frontier.Interleaving

/-!
# What goes on without commands

While a caller gives no command, expansions are handed over, searched, published and ended, rows are shown, and others
change the workspace.  Whatever of this goes on, and for however long, the selections stand and the columns stay as they
are, but that the last one gets its rows if it waits for them, and it gets them once.

A search under way shares the workspace with others, so between two of its requests anything may happen there.  The
list that is computed for a selection is what the search for the neighbours of the selected node comes to, each of its
requests replied to by the session that goes on when its turn comes.
-/

namespace CallGraph

/-- Slots that have stayed as they were, but that the last one may have got the rows that it waited for. -/
inductive Slot.Settles (slots : List Slot) : List Slot → Prop where
  | same : Settles slots slots
  | filled (before : List Slot) (last : Slot) (nodes : List Node) (split : slots = before ++ [last])
      (populating : last.column.state = .populating) :
      Settles slots (before ++ [{ last with column := .populated nodes }])

namespace Slot.Settles

variable {slots slots' slots'' before : List Slot} {last : Slot}

/-- The rows come once. -/
theorem trans (h : Settles slots slots') (h' : Settles slots' slots'') :
  Settles slots slots''
  := by
  cases h with
  | same => exact h'
  | filled before last nodes split populating =>
    subst split
    cases h' with
    | same => exact .filled before last nodes rfl populating
    | filled before' last' nodes' split' populating' =>
      obtain ⟨-, rfl⟩ := List.append_inj' split' rfl |>.imp_right List.singleton_inj.mp
      cases populating'

/-- All slots but the last one stay as they were. -/
theorem exists_last (h : Settles (before ++ [last]) slots') :
  ∃ last', slots' = before ++ [last'] ∧ last'.pending = last.pending ∧
    (last' = last ∨ last.column.state = .populating ∧ ∃ nodes, last'.column = .populated nodes)
  := by
  cases h with
  | same => exact ⟨last, rfl, rfl, .inl rfl⟩
  | filled before' last' nodes split populating =>
    obtain ⟨rfl, hlast⟩ := List.append_inj' split rfl
    obtain rfl := List.singleton_inj.mp hlast
    exact ⟨_, rfl, rfl, .inr ⟨populating, nodes, rfl⟩⟩

theorem length_eq (h : Settles slots slots') :
  slots'.length = slots.length
  := by
  cases h with
  | same => rfl
  | filled before last nodes split populating =>
    rw [split, List.length_append, List.length_append]
    rfl

theorem dropLast_eq (h : Settles slots slots') :
  slots'.dropLast = slots.dropLast
  := by
  cases h with
  | same => rfl
  | filled before last nodes split populating => rw [split, List.dropLast_concat, List.dropLast_concat]

/-- A column that has rows keeps them, and its selection. -/
theorem getElem?_of_populated (h : Settles slots slots') {i : Nat} {slot : Slot}
    (hslot : slots[i]? = some slot) (hpopulated : slot.column.state = .populated) :
  slots'[i]? = some slot
  := by
  cases h with
  | same => exact hslot
  | filled before last nodes split populating =>
    subst split
    rcases Nat.lt_trichotomy i before.length with hlt | rfl | hgt
    · rw [List.getElem?_append_left hlt] at hslot ⊢
      exact hslot
    · rw [List.getElem?_concat_length] at hslot
      obtain rfl := Option.some.inj hslot
      rw [hpopulated] at populating
      cases populating
    · rw [List.getElem?_eq_none (by rw [List.length_append, List.length_singleton]; exact hgt)] at hslot
      cases hslot

end Slot.Settles

namespace Session

open Relation (ReflTransGen)

variable {σ : Type} {s s' s'' : Session σ}

/-- What goes on while a caller gives no command: work, and changes of the workspace by others, who do not reach the
handles of its tasks. -/
inductive Beside : Session σ → Session σ → Prop where
  | work {s s' : Session σ} (work : Work s s') :
      Beside s s'
  | elsewhere (s : Session σ) (workspace : Workspace σ)
      (provider : workspace.provider = s.navigation.workspace.provider)
      (spares : s.searches.Spares workspace.searches) :
      Beside s { s with navigation := { s.navigation with workspace } }

/-- Any amount of what goes on while a caller gives no command. -/
def Meanwhile : Session σ → Session σ → Prop :=
  ReflTransGen Beside

/-- What goes on without commands are steps of the session. -/
theorem Beside.step (h : Beside s s') :
  Step s s'
  := by
  cases h with
  | work work => exact .work work
  | elsewhere workspace provider spares => exact .elsewhere s workspace provider spares

/-- Work is among what goes on. -/
theorem Meanwhile.works (h : ReflTransGen Work s s') :
  Meanwhile s s'
  :=
  ReflTransGen.mono (fun _ _ => Beside.work) _ _ h

/-- What goes on without commands is a run of the session. -/
theorem Meanwhile.steps (h : Meanwhile s s') :
  ReflTransGen Step s s'
  :=
  ReflTransGen.mono (fun _ _ => Beside.step) _ _ h

/-- What goes on without commands leads to sessions that can come about. -/
theorem Reachable.meanwhile {w : Workspace σ} {cacheSize : Nat} (h : Reachable w cacheSize s)
    (hmeanwhile : Meanwhile s s') :
  Reachable w cacheSize s'
  :=
  h.trans hmeanwhile.steps

/-- A list that is published goes to the last column, which waits for it. -/
theorem IsOrderly.settles_publish (h : s.IsOrderly) {handle : Token} {column : Nat} {nodes : List Node}
    {others : List (Token × Expansion)}
    (htasks : s.tasks.Perm ((handle, ⟨column, .searching (.done nodes)⟩) :: others)) :
  Slot.Settles s.slots (s.navigation.frontier.publish s.searches handle column nodes).slots
  := by
  have horderly := h.orderly.perm htasks
  rw [Frontier.publish]
  cases hcancelled : s.searches.isCancelled handle with
  | true => exact .same
  | false =>
    obtain ⟨hlast, p, hp, hhandle⟩ :=
      horderly.column_eq_last List.mem_cons_self (isSearching column _) hcancelled
    have hlast : column + 1 = s.standing.length := hlast
    have hhandle : p.handle = handle := hhandle
    obtain ⟨slot, hslot, hfills⟩ := horderly.filled column p hp
    -- Its list is not found yet, so the column right of the selection waits.
    have hpopulating : slot.column.state = .populating := by
      cases hfills with
      | waiting e populating => exact populating
      | filled populated found =>
        have hmem := List.mem_map_of_mem (f := Prod.fst) found
        exact absurd (hhandle ▸ hmem) (horderly.unfound _ List.mem_cons_self (isSearching column _))
    have hlt : column + 1 < s.slots.length := (List.getElem?_eq_some_iff.mp hslot).1
    have hdrop : s.slots.drop (column + 2) = [] := by
      apply List.drop_eq_nil_of_le
      exact Nat.le_of_eq (by rw [horderly.lined.length, ← hlast])
    have hsplit : s.slots = s.slots.take (column + 1) ++ [slot] := by
      rw [← (List.getElem?_eq_some_iff.mp hslot).2, ← hdrop, ← List.drop_eq_getElem_cons hlt, List.take_append_drop]
    have hpublished : s.slots.modify (column + 1) (fun slot => { slot with column := .populated nodes }) =
        s.slots.take (column + 1) ++ [{ slot with column := .populated nodes }] := by
      rw [List.modify_eq_take_cons_drop hlt, hdrop, (List.getElem?_eq_some_iff.mp hslot).2]
    exact hpublished ▸ .filled _ slot nodes hsplit hpopulating

/-- Work leaves the slots as they are, but that the last one may get the rows that it waits for. -/
theorem IsOrderly.settles_work (h : s.IsOrderly) (hwork : Work s s') :
  Slot.Settles s.slots s'.slots
  := by
  cases hwork.effect h.orderly.asideIssued with
  | aside tasks searches slots found => exact slots ▸ .same
  | reply handle column r next others tasks tasks' searches shown slots found => exact slots ▸ .same
  | publish handle column nodes others tasks tasks' searches shown slots found => exact slots ▸ h.settles_publish tasks
  | finish handle e others tasks tasks' idle searches shown slots found => exact slots ▸ .same

/-- What stays the same while no command is given. -/
structure Stands (s s' : Session σ) : Prop where
  orderly : s'.IsOrderly
  standing : s'.standing = s.standing
  provider : s'.navigation.workspace.provider = s.navigation.workspace.provider
  slots : Slot.Settles s.slots s'.slots

theorem IsOrderly.beside (h : s.IsOrderly) (hbeside : Beside s s') :
  s.Stands s'
  := by
  have horderly := h.step hbeside.step
  cases hbeside with
  | work work => exact ⟨horderly, work.keeps.1, work.keeps.2, h.settles_work work⟩
  | elsewhere workspace provider spares => exact ⟨horderly, rfl, provider, .same⟩

/-- However much goes on, the selections stand and the columns stay. -/
theorem IsOrderly.meanwhile (h : s.IsOrderly) (hmeanwhile : Meanwhile s s') :
  s.Stands s'
  := by
  induction hmeanwhile with
  | refl => exact ⟨h, rfl, rfl, .same⟩
  | tail _ hbeside ih =>
    have hlast := ih.orderly.beside hbeside
    exact ⟨hlast.orderly, hlast.standing.trans ih.standing, hlast.provider.trans ih.provider,
      ih.slots.trans hlast.slots⟩

/-! ### What expansions compute -/

/-- A run of what goes on while a caller gives no command, with the sessions before each of its steps. -/
inductive Ran (s : Session σ) : List (Session σ) → Session σ → Prop where
  | stay : Ran s [] s
  | beside {s' s'' : Session σ} {run : List (Session σ)} (ran : Ran s run s') (beside : Beside s' s'') :
      Ran s (run ++ [s']) s''

theorem Ran.meanwhile {run : List (Session σ)} (h : Ran s run s') :
  Meanwhile s s'
  := by
  induction h with
  | stay => exact .refl
  | beside _ hbeside ih => exact ih.tail hbeside

theorem Meanwhile.exists_ran (h : Meanwhile s s') :
  ∃ run, Ran s run s'
  := by
  induction h with
  | refl => exact ⟨[], .stay⟩
  | tail _ hbeside ih =>
    obtain ⟨run, hran⟩ := ih
    exact ⟨_, hran.beside hbeside⟩

/-- How far the search of an expansion has come at the end of a run, session by session: while it makes a request it
waits, or gets the reply of the session that goes on, and what it comes to in the end stays. -/
inductive Advances (handle : Token) (column : Nat) (search : Search (List Node)) :
    List (Session σ) → Session σ → Search (List Node) → Prop where
  | start {s : Session σ} (task : (handle, ⟨column, .searching search⟩) ∈ s.tasks) :
      Advances handle column search [] s search
  | waits {run : List (Session σ)} {s s' : Session σ} {rest : Search (List Node)}
      (h : Advances handle column search run s rest) (task' : (handle, ⟨column, .searching rest⟩) ∈ s'.tasks) :
      Advances handle column search (run ++ [s]) s' rest
  | reply {run : List (Session σ)} {s s' : Session σ} {r : Request} {next : r.Reply → Search (List Node)}
      (h : Advances handle column search run s (.wait r next))
      (task : (handle, ⟨column, .searching (.wait r next)⟩) ∈ s.tasks)
      (task' : (handle, ⟨column, .searching (next (s.reply r).1)⟩) ∈ s'.tasks) :
      Advances handle column search (run ++ [s]) s' (next (s.reply r).1)
  | stays {run : List (Session σ)} {s : Session σ} {nodes : List Node}
      (h : Advances handle column search run s (.done nodes)) (s' : Session σ) :
      Advances handle column search (run ++ [s]) s' (.done nodes)

/-- The search for the neighbours of a selected node, and the list that was computed for it, are what the search has
come to in the run since the row was selected. -/
structure Computed (s : Session σ) (p : Pending) (column : Nat) (run : List (Session σ)) : Prop where
  searching : ∀ column' search, (p.handle, ⟨column', .searching search⟩) ∈ s.tasks →
    column' = column ∧ Advances p.handle column (p.node.next p.handle) run s search
  found : ∀ nodes, (p.handle, nodes) ∈ s.found →
    Advances p.handle column (p.node.next p.handle) run s (.done nodes)

namespace Computed

variable {p : Pending} {column : Nat} {run : List (Session σ)}

/-- A search that goes on beside a step waits. -/
theorem searching_of_subset (h : s.Computed p column run) {column' : Nat} {search : Search (List Node)}
    (hmem : (p.handle, ⟨column', .searching search⟩) ∈ s'.tasks)
    (hbefore : (p.handle, ⟨column', .searching search⟩) ∈ s.tasks) :
  column' = column ∧ Advances p.handle column (p.node.next p.handle) (run ++ [s]) s' search
  := by
  obtain ⟨rfl, hadvances⟩ := h.searching column' search hbefore
  exact ⟨rfl, hadvances.waits hmem⟩

/-- The expansions end or change hands. -/
theorem aside (h : s.Computed p column run) (htasks : s'.tasks ⊆ s.tasks) (hfound : s'.found = s.found) :
  s'.Computed p column (run ++ [s])
  where
  searching _ _ hmem := h.searching_of_subset hmem (htasks hmem)
  found nodes hmem := (h.found nodes (hfound ▸ hmem)).stays s'

theorem work (h : s.Computed p column run) (horderly : s.IsOrderly) (hwork : Work s s') :
  s'.Computed p column (run ++ [s])
  := by
  cases hwork.effect horderly.orderly.asideIssued with
  | aside tasks searches slots found => exact h.aside tasks.symm.subset found
  | finish handle e others tasks tasks' idle searches shown slots found =>
    exact h.aside (List.Subset.trans tasks'.subset (List.Subset.trans (List.subset_cons_self _ _) tasks.symm.subset))
      found
  | reply handle column' r next others tasks tasks' searches shown slots found =>
    refine ⟨fun column'' search hmem => ?_, fun nodes hmem => (h.found nodes (found ▸ hmem)).stays s'⟩
    rcases List.mem_cons.mp (tasks'.subset hmem) with heq | hbefore
    · cases heq
      have htask := tasks.symm.subset List.mem_cons_self
      obtain ⟨rfl, hadvances⟩ := h.searching _ _ htask
      exact ⟨rfl, hadvances.reply htask hmem⟩
    · exact h.searching_of_subset hmem (tasks.symm.subset (List.mem_cons_of_mem _ hbefore))
  | publish handle column' nodes others tasks tasks' searches shown slots found =>
    refine ⟨fun column'' search hmem => ?_, fun nodes' hmem => ?_⟩
    · rcases List.mem_cons.mp (tasks'.subset hmem) with heq | hbefore
      · cases heq
      · exact h.searching_of_subset hmem (tasks.symm.subset (List.mem_cons_of_mem _ hbefore))
    · rw [found] at hmem
      rcases List.mem_cons.mp hmem with heq | hmem
      · cases heq
        exact (h.searching _ _ (tasks.symm.subset List.mem_cons_self)).2.stays s'
      · exact (h.found nodes' hmem).stays s'

theorem beside (h : s.Computed p column run) (horderly : s.IsOrderly) (hbeside : Beside s s') :
  s'.Computed p column (run ++ [s])
  := by
  cases hbeside with
  | work work => exact h.work horderly work
  | elsewhere workspace provider spares => exact h.aside (List.Subset.refl _) rfl

/-- When a row is selected, the search for the neighbours of its node begins. -/
theorem select (horderly : s.IsOrderly) {row : Nat} {slot : Slot} {node : Node} (hslot : s.slots[column]? = some slot)
    (hnode : slot.column.nodes[row]? = some node) :
  (s.perform (.select column row)).Computed ⟨.root s.searches.signals.next, node⟩ column []
  := by
  have hslot : s.navigation.frontier.slots[column]? = some slot := hslot
  simp only [perform, Navigation.choose, Frontier.choose, hslot, hnode]
  constructor
  · intro column' search hmem
    rcases List.mem_cons.mp hmem with heq | hmem
    · cases heq
      exact ⟨rfl, .start List.mem_cons_self⟩
    · have hhandle := List.mem_map_of_mem (f := Prod.fst) hmem
      exact absurd hhandle (Searches.next_not_mem_map horderly.orderly.issued)
  · intro nodes hmem
    have hhandle := List.mem_map_of_mem (f := Prod.fst) hmem
    exact absurd hhandle (Searches.next_not_mem_map horderly.orderly.foundIssued)

/-- Whatever goes on, the search gets its replies from the sessions of the run. -/
theorem ran (h : s.Computed p column []) (horderly : s.IsOrderly) (hran : Ran s run s') :
  s'.Computed p column run
  := by
  induction hran with
  | stay => exact h
  | beside hran hbeside ih => exact ih.beside (horderly.meanwhile hran.meanwhile).orderly hbeside

end Computed

end Session

end CallGraph
