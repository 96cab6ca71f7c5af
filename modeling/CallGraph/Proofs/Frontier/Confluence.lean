import CallGraph.Proofs.Frontier.Callers
import CallGraph.Proofs.Frontier.Interleaving
import CallGraph.Proofs.Frontier.Reference

/-!
# Faithful sessions

A frontier that has the searches of a workspace for itself, and in which only rows of columns that have theirs
are selected, shows the columns that its commands come to, however the work that goes with them is done.
Cancelling an expansion stops every search under way, but whenever this happens the one search whose rows
were still wanted is itself cancelled, so a list that is published is never cut short.
-/

namespace CallGraph

variable {σ : Type} {A : Setting}

/-- An expansion keeps a promise: its search makes only requests below its handle, and while it is not
cancelled nothing below its handle is, and it finds the rows of the column right of its own. -/
structure Promises (A : Setting) (c : Searches) (columns : List Column) (handle : Token) (e : Expansion) :
    Prop where
  asks : ∀ search, e.stage = .searching search → search.Ensures A ⟨handle, false⟩ fun _ => True
  finds : ∀ search, e.stage = .searching search → c.isCancelled handle = false →
    ∃ column, columns[e.column + 1]? = some column ∧
      search.Ensures A ⟨handle, true⟩ fun rows => List.Forall₂ Node.Alike rows column.nodes
  clean : e.IsSearching → c.isCancelled handle = false → ∀ u, handle.Covers u → c.isCancelled u = false

namespace Promises

variable {c c' : Searches} {columns columns' : List Column} {handle : Token} {e : Expansion}

/-- A promise holds as long as nothing is cancelled below the handle, unless all of it is, and the columns
right of column 0 stay. -/
theorem mono (h : Promises A c columns handle e)
    (hcolumns : c'.isCancelled handle = false → ∀ i, columns'[i + 1]? = columns[i + 1]?)
    (hcancelled : c'.isCancelled handle = false → ∀ u, handle.Covers u → c'.isCancelled u = c.isCancelled u) :
  Promises A c' columns' handle e
  := by
  have huncancelled : c'.isCancelled handle = false → c.isCancelled handle = false := by
    intro hc'
    rw [← hcancelled hc' handle handle.covers_self]
    apply hc'
  constructor
  · apply h.asks
  · intro search hstage hc'
    rw [hcolumns hc']
    apply h.finds search hstage (huncancelled hc')
  · intro hsearching hc' u hcovers
    rw [hcancelled hc' u hcovers]
    apply h.clean hsearching (huncancelled hc') u hcovers

/-- Nothing is promised of an expansion that searches no longer. -/
theorem settled (A : Setting) (c : Searches) (columns : List Column) (handle : Token) (column : Nat) :
  Promises A c columns handle ⟨column, .settled⟩
  :=
  ⟨nofun, nofun, nofun⟩

end Promises

namespace Session

variable {s s' : Session σ} {columns : List Column}

/-- Whether a caller may give a command: it selects only rows of columns that have theirs. -/
def Admits (s : Session σ) : Navigation.Command → Prop
  | .select index _ => ∀ column, s.columns[index]? = some column → column.state = .populated
  | _ => True

/-- What a session comes to when some commands are given to it, one after the other, and work goes on in
between. -/
inductive Run (start : Session σ) : List Navigation.Command → Session σ → Prop where
  | start : Run start [] start
  | command {commands : List Navigation.Command} {s : Session σ} (run : Run start commands s)
      (command : Navigation.Command) (admits : s.Admits command) :
      Run start (commands ++ [command]) (s.perform command)
  | work {commands : List Navigation.Command} {s s' : Session σ} (run : Run start commands s)
      (work : Work s s') :
      Run start commands s'

/-- The invariant of a session whose commands come to some columns. -/
structure IsFaithful (A : Setting) (s : Session σ) (columns : List Column) : Prop where
  orderly : s.IsOrderly
  fits : s.navigation.workspace.Fits A
  rooted : s.searches.Rooted
  mirrored : Mirrored s.slots columns
  promises : ∀ x ∈ s.tasks, Promises A s.searches columns x.1 x.2

/-! ### Work -/

/-- Showing rows keeps all promises. -/
theorem IsFaithful.shows (h : s.IsFaithful A columns) {n : Navigation σ} (hn : Shows s.navigation n) :
  IsFaithful A { s with navigation := n } columns
  := by
  have htouches := hn.touches h.orderly.orderly.asideIssued
  have htasks : tasks { s with navigation := n } = s.tasks := by
    simp only [tasks, stream, hn.expansions]
  constructor
  · apply h.orderly.shows hn
  · apply hn.fits A h.fits
  · apply htouches.rooted h.rooted
  · rw [slots, hn.slots]
    apply h.mirrored
  · intro x hx
    rw [htasks] at hx
    apply (h.promises x hx).mono fun _ _ => rfl
    intro _
    apply htouches.below x.1 (h.orderly.orderly.issued x hx) (h.orderly.orderly.apart x hx)

/-- Expansions that change hands or end keep their promises. -/
theorem IsFaithful.handOver (h : s.IsFaithful A columns) (horderly : s'.IsOrderly)
    (hfits : s'.navigation.workspace.Fits A) (hslots : s'.slots = s.slots)
    (hnext : s.searches.signals.next ≤ s'.searches.signals.next) (hlive : s'.searches.live = s.searches.live)
    (hcancelled : ∀ t, s'.searches.isCancelled t = s.searches.isCancelled t)
    (htasks : s'.tasks ⊆ s.tasks) :
  s'.IsFaithful A columns
  := by
  constructor
  · apply horderly
  · apply hfits
  · apply h.rooted.mono hnext hlive
    intro t ht
    rw [hcancelled] at ht
    exact .inl ht
  · rw [hslots]
    apply h.mirrored
  · intro x hx
    apply (h.promises x (htasks hx)).mono (fun _ _ => rfl) fun _ u _ => hcancelled u

/-- An expansion that ends takes its promise with it. -/
theorem IsFaithful.finish (h : s.IsFaithful A columns) (handle : Token) (horderly : s'.IsOrderly)
    (hworkspace : s'.navigation.workspace = (s.navigation.finish handle).workspace)
    (hslots : s'.slots = s.slots) (htasks : s'.tasks ⊆ s.tasks) :
  s'.IsFaithful A columns
  := by
  have hsearches : s'.searches = { s.searches with signals := s.searches.signals.finish handle } :=
    congrArg Workspace.searches hworkspace
  apply h.handOver horderly
  · rw [hworkspace]
    apply h.fits.withSearches _
  · apply hslots
  · rw [hsearches]
    apply Nat.le_of_eq (Signals.next_finish _ _).symm
  · rw [hsearches]
  · rw [hsearches]
    apply Signals.isCancelled_finish _ _
  · apply htasks

/-- The search of an expansion goes on with a reply. -/
theorem IsFaithful.promises_reply (h : s.IsFaithful A columns) {handle : Token} {column : Nat} {r : Request}
    {next : r.Reply → Search (List Node)}
    (hmem : (handle, ⟨column, .searching (.wait r next)⟩) ∈ s.tasks) :
  Promises A (s.reply r).2.searches columns handle ⟨column, .searching (next (s.reply r).1)⟩
  := by
  have hpromises := h.promises _ hmem
  have hcancelled : ∀ u, (s.reply r).2.searches.isCancelled u = s.searches.isCancelled u :=
    h.fits.isCancelled_perform r
  obtain ⟨hasks, hrest⟩ := hpromises.asks _ rfl
  constructor
  · rintro search ⟨⟩
    apply hrest _ (h.fits.admits hasks nofun)
  · rintro search ⟨⟩ huncancelled
    rw [hcancelled] at huncancelled
    obtain ⟨target, htarget, -, hnext⟩ := hpromises.finds _ rfl huncancelled
    have hclean := hpromises.clean ⟨_, rfl⟩ huncancelled
    exact ⟨target, htarget, hnext _ (h.fits.admits hasks fun _ => hclean)⟩
  · intro hsearching huncancelled u hcovers
    rw [hcancelled] at huncancelled ⊢
    apply hpromises.clean ⟨_, rfl⟩ huncancelled u hcovers

/-- A request keeps a session faithful; `others` are the expansions besides the one whose search makes it. -/
theorem IsFaithful.request (h : s.IsFaithful A columns) {handle : Token} {column : Nat} {r : Request}
    {next : r.Reply → Search (List Node)} {others : List (Token × Expansion)}
    (htasks : s.tasks.Perm ((handle, ⟨column, .searching (.wait r next)⟩) :: others))
    (horderly : s'.IsOrderly) (hnavigation : s'.navigation.workspace = (s.reply r).2.navigation.workspace)
    (hslots : s'.slots = s.slots)
    (htasks' : s'.tasks.Perm ((handle, ⟨column, .searching (next (s.reply r).1)⟩) :: others)) :
  s'.IsFaithful A columns
  := by
  have hmem : (handle, ⟨column, .searching (.wait r next)⟩) ∈ s.tasks :=
    htasks.mem_iff.mpr List.mem_cons_self
  have hsearches : s'.searches = (s.reply r).2.searches := congrArg Workspace.searches hnavigation
  constructor
  · apply horderly
  · rw [hnavigation]
    apply h.fits.perform r
  · rw [hsearches]
    have hasks := ((h.promises _ hmem).asks _ rfl).1
    apply h.fits.rooted_perform (t := ⟨handle, false⟩) (h.orderly.orderly.issued _ hmem) hasks h.rooted
  · rw [hslots]
    apply h.mirrored
  · intro x hx
    rw [hsearches]
    rcases List.mem_cons.mp (htasks'.mem_iff.mp hx) with rfl | hx
    · apply h.promises_reply hmem
    · have hx : x ∈ s.tasks := htasks.mem_iff.mpr (List.mem_cons_of_mem _ hx)
      apply (h.promises x hx).mono (fun _ _ => rfl) fun _ u _ => h.fits.isCancelled_perform r u

/-- Publishing a list keeps a session faithful. -/
theorem IsFaithful.publish (h : s.IsFaithful A columns) {handle : Token} {column : Nat} {nodes : List Node}
    {others : List (Token × Expansion)}
    (htasks : s.tasks.Perm ((handle, ⟨column, .searching (.done nodes)⟩) :: others))
    (horderly : s'.IsOrderly) (hworkspace : s'.navigation.workspace = s.navigation.workspace)
    (hslots : s'.slots = (s.navigation.frontier.publish s.searches handle column nodes).slots)
    (htasks' : s'.tasks.Perm ((handle, ⟨column, .settled⟩) :: others)) :
  s'.IsFaithful A columns
  := by
  have hmem : (handle, ⟨column, .searching (.done nodes)⟩) ∈ s.tasks :=
    htasks.mem_iff.mpr List.mem_cons_self
  have hsearches : s'.searches = s.searches := congrArg Workspace.searches hworkspace
  constructor
  · apply horderly
  · rw [hworkspace]
    apply h.fits
  · rw [hsearches]
    apply h.rooted
  · rw [hslots, Frontier.publish]
    change Mirrored (if s.searches.isCancelled handle then s.slots else _) columns
    split
    case isTrue => apply h.mirrored
    case isFalse huncancelled =>
      have huncancelled : s.searches.isCancelled handle = false := (Bool.not_eq_true _).mp huncancelled
      obtain ⟨target, htarget, hrows⟩ := (h.promises _ hmem).finds _ rfl huncancelled
      obtain ⟨hlast, -⟩ := h.orderly.orderly.column_eq_last hmem ⟨_, rfl⟩ huncancelled
      obtain ⟨slot, hslot, hopen⟩ := h.orderly.orderly.lined.last
      rw [← hlast] at hslot
      apply h.mirrored.publish hslot hopen.selected htarget hrows
  · intro x hx
    rw [hsearches]
    rcases List.mem_cons.mp (htasks'.mem_iff.mp hx) with rfl | hx
    · exact .settled ..
    · apply h.promises x (htasks.mem_iff.mpr (List.mem_cons_of_mem _ hx))

/-- Taking up the next expansion keeps a session faithful. -/
theorem IsFaithful.start (h : s.IsFaithful A columns) (hrunning : s.stream.running = none) :
  IsFaithful A { s with navigation := s.navigation.stepExpansion } columns
  := by
  have horderly := h.orderly.work (.start s hrunning)
  cases hwaiting : s.stream.waiting with
  | nil =>
      rw [Navigation.stepExpansion_of_nil hrunning hwaiting]
      apply h
  | cons first rest =>
      obtain ⟨handle, e⟩ := first
      have hperm := tasks_perm_of_waiting [] rest hwaiting
      cases hcancelled : s.searches.isCancelled handle with
      | true =>
          rw [Navigation.stepExpansion_of_cancelled hrunning hwaiting hcancelled] at horderly ⊢
          apply h.finish handle horderly rfl rfl
          apply List.Subset.trans (List.subset_cons_self _ _) hperm.symm.subset
      | false =>
          rw [Navigation.stepExpansion_of_uncancelled hrunning hwaiting hcancelled] at horderly ⊢
          apply h.handOver horderly h.fits rfl (Nat.le_refl _) rfl fun _ => rfl
          rw [hrunning, Option.toList_none, List.append_nil] at hperm
          have hperm' := List.perm_append_singleton (handle, e) (s.inHand ++ s.begun ++ rest)
          apply (hperm'.trans hperm.symm).subset

/-- Work keeps a session faithful. -/
theorem IsFaithful.work (h : s.IsFaithful A columns) (hwork : Work s s') :
  s'.IsFaithful A columns
  := by
  have horderly := h.orderly.work hwork
  cases hwork with
  | focus column => apply h.shows (.focus s.navigation column)
  | configure => apply h.handOver horderly h.fits.getConfig rfl (Nat.le_refl _) rfl (fun _ => rfl) fun _ => id
  | render => apply h.shows (.stepRender s.navigation)
  | submit before after handle e inHand =>
      apply h.handOver horderly h.fits rfl (Nat.le_refl _) rfl fun _ => rfl
      have hperm := tasks_perm_of_inHand before after inHand
      rw [← List.append_nil s.stream.waiting] at hperm
      apply ((tasks_perm_of_waiting s.stream.waiting [] rfl).trans hperm.symm).subset
  | start running => apply h.start running
  | request handle column r next running =>
      apply h.request (tasks_perm_of_running running) horderly rfl rfl
      exact tasks_perm_of_running (TaskStream.running_resume running _)
  | publish handle column nodes running =>
      rw [Navigation.stepExpansion_of_done running] at horderly ⊢
      apply h.publish (tasks_perm_of_running running) horderly rfl rfl
      exact tasks_perm_of_running (TaskStream.running_resume running _)
  | finish handle column running =>
      rw [Navigation.stepExpansion_of_settled running] at horderly ⊢
      apply h.finish handle horderly rfl rfl
      have hperm := tasks_perm_of_running running
      rw [← List.append_nil (s.inHand ++ s.begun ++ s.stream.waiting)] at hperm
      apply List.Subset.trans (List.subset_cons_self _ _) hperm.symm.subset
  | begin before after handle e inHand cancelled =>
      apply h.handOver horderly h.fits rfl (Nat.le_refl _) rfl fun _ => rfl
      have hperm := tasks_perm_of_inHand before after inHand
      apply ((tasks_perm_of_begun [] s.begun rfl).trans hperm.symm).subset
  | skip before after handle e inHand cancelled =>
      apply h.finish handle horderly rfl rfl
      have hperm := tasks_perm_of_inHand before after inHand
      apply List.Subset.trans (List.subset_cons_self _ _) hperm.symm.subset
  | callerRequest before after handle column r next begun =>
      apply h.request (tasks_perm_of_begun before after begun) horderly rfl rfl
      apply tasks_perm_of_begun before after rfl
  | callerPublish before after handle column nodes begun =>
      apply h.publish (tasks_perm_of_begun before after begun) horderly rfl rfl
      apply tasks_perm_of_begun before after rfl
  | callerFinish before after handle column begun =>
      apply h.finish handle horderly rfl rfl
      apply List.Subset.trans (List.subset_cons_self _ _) (tasks_perm_of_begun before after begun).symm.subset

/-- However much work is done, a session stays faithful. -/
theorem IsFaithful.works (h : s.IsFaithful A columns) (hworks : Relation.ReflTransGen Work s s') :
  s'.IsFaithful A columns
  := by
  induction hworks with
  | refl => apply h
  | tail _ hwork ih => apply ih.work hwork

/-! ### Commands -/

/-- Cancelling expansions cancels nothing but what lies below handles. -/
theorem rooted_of_cancels {c c' : Searches} {ps : List Pending} (h : c.Rooted) (hc : c.Cancels ps c')
    (hps : ∀ p ∈ ps, c.Issued p.handle) :
  c'.Rooted
  := by
  apply h.mono (Nat.le_of_eq hc.next.symm) hc.live
  intro t ht
  rcases hc.only t ht with ht | ⟨p, hp, -, hcovers | ⟨u, hu, hcovers⟩⟩
  · exact .inl ht
  · exact .inr ⟨p.handle, hps p hp, hcovers⟩
  · obtain ⟨v, hv, hvu⟩ := h.live u hu
    exact .inr ⟨v, hv, hvu.trans hcovers⟩

/-- Searches that are cancelled keep every promise. -/
theorem IsFaithful.promises_of_isCancelled (h : s.IsFaithful A columns) {c' : Searches}
    (hcancelled : ∀ x ∈ s.tasks, x.2.IsSearching → c'.isCancelled x.1) (columns' : List Column) :
  ∀ x ∈ s.tasks, Promises A c' columns' x.1 x.2
  := by
  intro x hx
  constructor
  · apply (h.promises x hx).asks
  · intro search hstage huncancelled
    rw [hcancelled x hx ⟨search, hstage⟩] at huncancelled
    cases huncancelled
  · intro hsearching huncancelled
    rw [hcancelled x hx hsearching] at huncancelled
    cases huncancelled

/-- Column 0 is the same in the columns that mirror a session. -/
theorem IsFaithful.exists_root (h : s.IsFaithful A columns) :
  ∃ slot rest others, s.slots = slot :: rest ∧ columns = slot.column :: others ∧
    slot.column.state = .populated
  := by
  obtain ⟨slot, rest, hslots, hpopulated⟩ := h.orderly.exists_root
  have hlength := h.mirrored.length
  rw [hslots] at hlength
  cases columns with
  | nil => cases hlength
  | cons column others =>
      have hroot := h.mirrored.root slot column (by rw [hslots]; rfl) rfl
      exact ⟨slot, rest, others, hslots, by rw [hroot], hpopulated⟩

/-- Starting afresh with a single column keeps a session faithful. -/
theorem IsFaithful.restart (h : s.IsFaithful A columns) (slot : Slot) {c' : Searches}
    (hc : s.searches.Cancels (pendings s.slots) c') (horderly : s'.IsOrderly)
    (hworkspace : s'.navigation.workspace = { s.navigation.workspace with searches := c' })
    (hslots : s'.slots = [slot]) (hpopulated : slot.column.state = .populated) (htasks : s'.tasks = s.tasks) :
  s'.IsFaithful A [slot.column]
  := by
  have hsearches : s'.searches = c' := congrArg Workspace.searches hworkspace
  have hc : s.searches.Cancels (pendings (s.slots.drop 0)) c' := hc
  obtain ⟨root, rest, hroot, hrootPopulated⟩ := h.orderly.exists_root
  constructor
  · apply horderly
  · rw [hworkspace]
    apply h.fits.withSearches c'
  · rw [hsearches]
    apply rooted_of_cancels h.rooted hc fun p hp => h.orderly.orderly.pendings_issued hp
  · rw [hslots]
    exact .single rfl hpopulated
  · rw [htasks, hsearches]
    apply h.promises_of_isCancelled
    intro x hx hsearching
    have hslot : s.slots[0]? = some root := by
      rw [hroot]
      rfl
    apply h.orderly.orderly.isCancelled_of_cancels hslot hrootPopulated hc hx hsearching

/-- A change of column 0 that cancels nothing keeps a session faithful. -/
theorem IsFaithful.changeRoots {slot : Slot} (slot' : Slot) {rest : List Slot} {others : List Column}
    (h : s.IsFaithful A (slot.column :: others)) (hslots : s.slots = slot :: rest) (horderly : s'.IsOrderly)
    (hworkspace : s'.navigation.workspace = s.navigation.workspace) (hslots' : s'.slots = slot' :: rest)
    (hpopulated : slot'.column.state = .populated) (htasks : s'.tasks = s.tasks) :
  s'.IsFaithful A (slot'.column :: others)
  := by
  have hsearches : s'.searches = s.searches := congrArg Workspace.searches hworkspace
  have hmirrored := h.mirrored
  rw [hslots] at hmirrored
  constructor
  · apply horderly
  · rw [hworkspace]
    apply h.fits
  · rw [hsearches]
    apply h.rooted
  · rw [hslots']
    apply hmirrored.changeRoots rfl hpopulated
  · rw [htasks, hsearches]
    intro x hx
    exact (h.promises x hx).mono (fun _ _ => rfl) fun _ _ _ => rfl

/-- Replacing the roots keeps a session faithful. -/
theorem IsFaithful.setRoots (h : s.IsFaithful A columns) (nodes : List Node) :
  (s.perform (.setRoots nodes)).IsFaithful A (A.perform columns (.setRoots nodes))
  :=
  h.restart (.populated nodes) (cancelFrom_cancels 0 _ _) (h.orderly.setRoots nodes) rfl rfl rfl rfl

/-- Adding roots keeps a session faithful. -/
theorem IsFaithful.addRoots (h : s.IsFaithful A columns) (nodes : List Node) :
  (s.perform (.addRoots nodes)).IsFaithful A (A.perform columns (.addRoots nodes))
  := by
  obtain ⟨slot, rest, others, hslots, rfl, hpopulated⟩ := h.exists_root
  apply h.changeRoots { slot with column := { slot.column with nodes := slot.column.nodes ++ nodes } } hslots
    (h.orderly.addRoots nodes) rfl
  · change s.slots.modifyHead _ = _
    rw [hslots]
    rfl
  · apply hpopulated
  · rfl

/-- Removing roots keeps a session faithful. -/
theorem IsFaithful.removeRoots (h : s.IsFaithful A columns) (nodes : List Node) :
  (s.perform (.removeRoots nodes)).IsFaithful A (A.perform columns (.removeRoots nodes))
  := by
  obtain ⟨slot, rest, others, hslots, rfl, hpopulated⟩ := h.exists_root
  have horderly := h.orderly.removeRoots nodes
  have hslots' : s.navigation.frontier.slots = slot :: rest := hslots
  cases hselected : slot.column.selectedNode? with
  | none =>
      simp only [perform, Navigation.removeRoots, Frontier.removeRoots, hslots', hselected] at horderly ⊢
      simp only [Setting.perform, hselected]
      apply h.changeRoots _ hslots horderly rfl rfl hpopulated rfl
  | some selected =>
      cases hamong : Frontier.isAmong nodes selected with
      | true =>
          simp only [perform, Navigation.removeRoots, Frontier.removeRoots, hslots', hselected, hamong,
            if_true] at horderly ⊢
          simp only [Setting.perform, hselected, hamong, if_true]
          have hcancels : s.searches.Cancels (pendings s.slots)
              (cancelFrom 0 (slot :: rest) s.searches).2 := hslots ▸ cancelFrom_cancels 0 _ _
          apply h.restart _ hcancels horderly rfl rfl hpopulated rfl
      | false =>
          simp only [perform, Navigation.removeRoots, Frontier.removeRoots, hslots', hselected, hamong,
            Bool.false_eq_true, if_false] at horderly ⊢
          simp only [Setting.perform, hselected, hamong, Bool.false_eq_true, if_false]
          apply h.changeRoots _ hslots horderly rfl rfl hpopulated rfl

/-- Rows alike are alike one by one. -/
theorem exists_alike {rows rows' : List Node} (h : List.Forall₂ Node.Alike rows rows') {row : Nat}
    {node : Node} (hnode : rows[row]? = some node) :
  ∃ node', rows'[row]? = some node' ∧ node.Alike node'
  := by
  induction h generalizing row with
  | nil => cases hnode
  | cons hfirst _ ih =>
      cases row with
      | zero =>
          cases hnode
          exact ⟨_, rfl, hfirst⟩
      | succ row => apply ih hnode

/-- Cancelling expansions cancels nothing below the next handle. -/
theorem isCancelled_below_next {c c' : Searches} (hrooted : c.Rooted) {ps : List Pending}
    (hps : ∀ p ∈ ps, c.Issued p.handle)
    (hc : Searches.Cancels ps { c with signals := c.signals.fresh.2 } c') {u : Token}
    (hcovers : (Token.root c.signals.next).Covers u) :
  c'.isCancelled u = false
  := by
  have hissued : ¬ ∃ v, c.Issued v ∧ v.Covers u := by
    rintro ⟨_, ⟨m, hm, rfl⟩, hv⟩
    rw [Token.root_unique hv hcovers] at hm
    apply Nat.lt_irrefl _ hm
  rw [Bool.eq_false_iff]
  intro hcancelled
  apply hissued
  rcases hc.only u hcancelled with hbefore | ⟨p, hp, -, hpu | ⟨v, hv, hvu⟩⟩
  · have hbefore : c.isCancelled u := (c.signals.isCancelled_fresh u).symm.trans hbefore
    apply hrooted.cancelled u hbefore
  · exact ⟨p.handle, hps p hp, hpu⟩
  · obtain ⟨w, hw, hwv⟩ := hrooted.live v hv
    exact ⟨w, hw, hwv.trans hvu⟩

/-- Of an expansion just chosen it is promised that it finds the rows of its node. -/
theorem promises_chosen {c : Searches} {handle : Token} {index : Nat} {node node' : Node}
    (hclean : ∀ u, handle.Covers u → c.isCancelled u = false) (halike : node.Alike node')
    {columns : List Column} (hcolumns : columns[index + 1]? = some (.populated (A.rows node'))) :
  Promises A c columns handle ⟨index, .searching (node.next handle)⟩
  := by
  constructor
  · rintro search ⟨⟩
    apply (Node.ensures_next A halike ⟨handle, false⟩).imp fun _ _ => trivial
  · rintro search ⟨⟩ -
    refine ⟨_, hcolumns, ?_⟩
    apply (Node.ensures_next A halike ⟨handle, true⟩).imp fun _ hrows => hrows rfl
  · exact fun _ _ => hclean

/-- Selecting a row keeps a session faithful. -/
theorem IsFaithful.select (h : s.IsFaithful A columns) {index row : Nat}
    (hadmits : s.Admits (.select index row)) :
  (s.perform (.select index row)).IsFaithful A (A.perform columns (.select index row))
  := by
  have horderly := h.orderly.select index row
  cases hslot : s.navigation.frontier.slots[index]? with
  | none =>
      have hcolumn : columns[index]? = none := by
        rw [List.getElem?_eq_none_iff, ← h.mirrored.length]
        apply List.getElem?_eq_none_iff.mp hslot
      simp only [perform, Navigation.choose, Frontier.choose, hslot, Setting.perform, hcolumn]
      apply h
  | some slot =>
      obtain ⟨column, hcolumn, hmirrored⟩ := h.mirrored.exists_column hslot
      have hpopulated : slot.column.state = .populated := by
        apply hadmits
        apply getElem?_columns.mpr ⟨slot, hslot, rfl⟩
      have hrows := hmirrored.nodes hpopulated
      cases hnode : slot.column.nodes[row]? with
      | none =>
          have hnode' : column.nodes[row]? = none := by
            rw [List.getElem?_eq_none_iff, ← hrows.length_eq]
            apply List.getElem?_eq_none_iff.mp hnode
          simp only [perform, Navigation.choose, Frontier.choose, hslot, hnode, Setting.perform, hcolumn,
            hnode']
          apply h
      | some node =>
          obtain ⟨node', hnode', halike⟩ := exists_alike hrows hnode
          have hcancels := cancelFrom_cancels index s.slots
            { s.searches with signals := s.searches.signals.fresh.2 }
          have hspares := s.searches.spares_fresh
          have hfresh := h.orderly.orderly.confine (.ofSpares hspares)
          have hpendings : ∀ p ∈ pendings (s.slots.drop index), s.searches.Issued p.handle :=
            fun p hp => h.orderly.orderly.pendings_issued hp
          simp only [perform, Navigation.choose, Frontier.choose, hslot, hnode] at horderly ⊢
          simp only [Setting.perform, hcolumn, hnode']
          constructor
          · apply horderly
          · apply (h.fits.withSearches _).withSearches _
          · have hrooted := (Searches.Touches.fresh [] s.searches).rooted h.rooted
            apply rooted_of_cancels hrooted hcancels fun p hp => (hpendings p hp).mono hspares.next
          · have hmirrored := h.mirrored.select hslot hcolumn row
              (some ⟨.root s.searches.signals.next, node⟩) (A.rows node')
            rw [← cancelFrom_take] at hmirrored
            apply hmirrored
          · intro x hx
            rcases List.mem_cons.mp hx with rfl | hx
            · refine promises_chosen ?_ halike ?_
              · exact fun u hcovers => isCancelled_below_next h.rooted hpendings hcancels hcovers
              · have hlt : index < columns.length := (List.getElem?_eq_some_iff.mp hcolumn).1
                rw [getElem?_cut_add _ (Nat.le_of_lt hlt)]
                rfl
            · apply h.promises_of_isCancelled _ _ x hx
              intro y hy hsearching
              apply hfresh.isCancelled_of_cancels hslot hpopulated hcancels hy hsearching

/-- Commands keep a session faithful. -/
theorem IsFaithful.perform (h : s.IsFaithful A columns) {command : Navigation.Command}
    (hadmits : s.Admits command) :
  (s.perform command).IsFaithful A (A.perform columns command)
  := by
  cases command with
  | setRoots nodes => apply h.setRoots nodes
  | addRoots nodes => apply h.addRoots nodes
  | removeRoots nodes => apply h.removeRoots nodes
  | select column row => apply h.select hadmits

/-! ### Runs -/

/-- The session of a new navigation is faithful. -/
theorem IsFaithful.ofWorkspace {w : Workspace σ} (hw : w.Fits A) (cacheSize : Nat) :
  (ofWorkspace w cacheSize).IsFaithful A (A.performAll [])
  := by
  constructor
  · exact .ofWorkspace hw.sparesHandles cacheSize
  · apply hw.withSearches {}
  · exact .empty
  · exact .single rfl rfl
  · intro x hx
    cases hx

/-- Every run keeps a session faithful to the columns its commands come to. -/
theorem Run.isFaithful {w : Workspace σ} {cacheSize : Nat} {commands : List Navigation.Command}
    (hw : w.Fits A) (hrun : Run (.ofWorkspace w cacheSize) commands s) :
  s.IsFaithful A (A.performAll commands)
  := by
  induction hrun with
  | start => exact .ofWorkspace hw cacheSize
  | command run command admits ih =>
      rw [Setting.performAll, List.foldl_append]
      apply ih.perform admits
  | work run work ih => apply ih.work work

end Session

end CallGraph
