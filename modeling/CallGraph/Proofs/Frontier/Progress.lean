import CallGraph.Proofs.Frontier.Orderly
import CallGraph.Proofs.Frontier.Session
import CallGraph.Proofs.Frontier.Worker
import CallGraph.Proofs.Search.Truthful

/-!
# What work comes to

Whoever does it and on whichever thread, a piece of work does one of four things: expansions change hands or a row is
shown, a search gets the reply to its request, the list of a search that is done is published or thrown away, or an
expansion ends.  The selections that stand are left alone by all of them.
-/

namespace CallGraph

namespace Session

variable {σ : Type} {s s' : Session σ}

/-! ### Expansions and those who hold them -/

section Tasks

variable {x : Token × Expansion} (before after : List (Token × Expansion))

/-- An expansion in a caller's hand is one of those that are not finished. -/
theorem tasks_perm_of_inHand (h : s.inHand = before ++ x :: after) :
  s.tasks.Perm (x :: (before ++ after ++ s.begun ++ s.stream.waiting ++ s.stream.running.toList))
  := by
  simp [tasks, h]

/-- An expansion on a caller's thread is one of those that are not finished. -/
theorem tasks_perm_of_begun (h : s.begun = before ++ x :: after) :
  s.tasks.Perm (x :: (s.inHand ++ (before ++ after) ++ s.stream.waiting ++ s.stream.running.toList))
  := by
  have hmiddle : (s.inHand ++ before ++ x :: (after ++ s.stream.waiting ++ s.stream.running.toList)).Perm
      (x :: (s.inHand ++ before ++ (after ++ s.stream.waiting ++ s.stream.running.toList))) :=
    List.perm_middle
  simpa [tasks, h] using hmiddle

/-- An expansion that waits in the stream is one of those that are not finished. -/
theorem tasks_perm_of_waiting (h : s.stream.waiting = before ++ x :: after) :
  s.tasks.Perm (x :: (s.inHand ++ s.begun ++ (before ++ after) ++ s.stream.running.toList))
  := by
  have hmiddle : (s.inHand ++ s.begun ++ before ++ x :: (after ++ s.stream.running.toList)).Perm
      (x :: (s.inHand ++ s.begun ++ before ++ (after ++ s.stream.running.toList))) :=
    List.perm_middle
  simpa [tasks, h] using hmiddle

/-- The expansion that the worker runs is one of those that are not finished. -/
theorem tasks_perm_of_running (h : s.stream.running = some x) :
  s.tasks.Perm (x :: (s.inHand ++ s.begun ++ s.stream.waiting))
  := by
  rw [tasks, h]
  apply List.perm_append_singleton _ _

end Tasks

/-- A search under way. -/
theorem isSearching (column : Nat) (search : Search (List Node)) :
  Expansion.IsSearching ⟨column, .searching search⟩
  :=
  ⟨search, rfl⟩

/-- An expansion whose list was published or thrown away searches no longer. -/
theorem not_isSearching (column : Nat) :
  ¬ Expansion.IsSearching ⟨column, .settled⟩
  :=
  nofun

/-! ### Effects -/

/-- What a piece of work does to the expansions, the searches under way and the columns. -/
inductive Effect (s s' : Session σ) : Prop where
  /-- Expansions change hands, or a row is shown. -/
  | aside (tasks : s.tasks.Perm s'.tasks)
      (searches : s.searches.Confined s.navigation.frontier.shown s'.navigation.frontier.shown s'.searches)
      (slots : s'.slots = s.slots) (found : s'.found = s.found)
  /-- A search gets the reply to its request. -/
  | reply (handle : Token) (column : Nat) (r : Request) (next : r.Reply → Search (List Node))
      (others : List (Token × Expansion))
      (tasks : s.tasks.Perm ((handle, ⟨column, .searching (.wait r next)⟩) :: others))
      (tasks' : s'.tasks.Perm ((handle, ⟨column, .searching (next (s.reply r).1)⟩) :: others))
      (searches : s'.searches = (s.reply r).2.searches)
      (shown : s'.navigation.frontier.shown = s.navigation.frontier.shown)
      (slots : s'.slots = s.slots) (found : s'.found = s.found)
  /-- The list of a search that is done is published, or thrown away. -/
  | publish (handle : Token) (column : Nat) (nodes : List Node) (others : List (Token × Expansion))
      (tasks : s.tasks.Perm ((handle, ⟨column, .searching (.done nodes)⟩) :: others))
      (tasks' : s'.tasks.Perm ((handle, ⟨column, .settled⟩) :: others))
      (searches : s'.searches = s.searches)
      (shown : s'.navigation.frontier.shown = s.navigation.frontier.shown)
      (slots : s'.slots = (s.navigation.frontier.publish s.searches handle column nodes).slots)
      (found : s'.found = (handle, nodes) :: s.found)
  /-- An expansion ends, after its search or because it was cancelled. -/
  | finish (handle : Token) (e : Expansion) (others : List (Token × Expansion))
      (tasks : s.tasks.Perm ((handle, e) :: others)) (tasks' : s'.tasks.Perm others)
      (idle : ¬ e.IsSearching ∨ s.searches.isCancelled handle)
      (searches : s'.searches = { s.searches with signals := s.searches.signals.finish handle })
      (shown : s'.navigation.frontier.shown = s.navigation.frontier.shown)
      (slots : s'.slots = s.slots) (found : s'.found = s.found)

/-- Work that leaves searches, slots and lists as they are. -/
theorem Effect.quiet (tasks : s.tasks.Perm s'.tasks) (searches : s'.searches = s.searches)
    (shown : s'.navigation.frontier.shown = s.navigation.frontier.shown) (slots : s'.slots = s.slots)
    (found : s'.found = s.found) :
  Effect s s'
  := by
  refine .aside tasks ?_ slots found
  rw [searches, shown]
  exact .ofSpares (.refl _)

/-- A row is shown. -/
theorem Effect.shows (hissued : ∀ t ∈ s.navigation.frontier.shown, s.searches.Issued t) {n : Navigation σ}
    (hn : Shows s.navigation n) :
  Effect s { s with navigation := n }
  := by
  refine .aside ?_ (hn.touches hissued).confined hn.slots rfl
  rw [show tasks { s with navigation := n } = s.tasks by simp only [tasks, stream, hn.expansions]]

/-- The worker takes up the next expansion, or skips it. -/
theorem Effect.start (hrunning : s.stream.running = none) :
  Effect s { s with navigation := s.navigation.stepExpansion }
  := by
  cases hwaiting : s.stream.waiting with
  | nil =>
    rw [Navigation.stepExpansion_of_nil hrunning hwaiting]
    exact .quiet (.refl _) rfl rfl rfl rfl
  | cons first rest =>
    obtain ⟨handle, e⟩ := first
    have htasks := tasks_perm_of_waiting [] rest hwaiting
    cases hcancelled : s.searches.isCancelled handle with
    | true =>
      rw [Navigation.stepExpansion_of_cancelled hrunning hwaiting hcancelled]
      exact .finish handle e _ htasks (.refl _) (.inr hcancelled) rfl rfl rfl rfl
    | false =>
      rw [Navigation.stepExpansion_of_uncancelled hrunning hwaiting hcancelled]
      refine .quiet (htasks.trans ?_) rfl rfl rfl rfl
      rw [hrunning, Option.toList_none, List.append_nil]
      exact (List.perm_append_singleton _ _).symm

/-- What work comes to. -/
theorem Work.effect (hissued : ∀ t ∈ s.navigation.frontier.shown, s.searches.Issued t) (hwork : Work s s') :
  Effect s s'
  := by
  cases hwork with
  | focus column => exact .shows hissued (.focus s.navigation column)
  | configure => exact .quiet (.refl _) rfl rfl rfl rfl
  | render => exact .shows hissued (.stepRender s.navigation)
  | submit before after handle e inHand =>
    refine .quiet ((tasks_perm_of_inHand before after inHand).trans ?_) rfl rfl rfl rfl
    rw [← List.append_nil s.stream.waiting]
    apply List.Perm.symm
    apply tasks_perm_of_waiting s.stream.waiting [] rfl
  | start running => exact .start running
  | request handle column r next running =>
    have htasks' := tasks_perm_of_running
      (s := (s.reply r).2.resume ⟨column, .searching (next (s.reply r).1)⟩) (TaskStream.running_resume running _)
    exact .reply handle column r next _ (tasks_perm_of_running running) htasks' rfl rfl rfl rfl
  | publish handle column nodes running =>
    rw [Navigation.stepExpansion_of_done running]
    have hrunning' := TaskStream.running_resume running ⟨column, .settled⟩
    exact .publish handle column nodes _ (tasks_perm_of_running running) (tasks_perm_of_running hrunning') rfl rfl rfl
      rfl
  | finish handle column running =>
    rw [Navigation.stepExpansion_of_settled running]
    refine .finish handle _ _ (tasks_perm_of_running running) ?_ (.inl (not_isSearching column)) rfl rfl rfl rfl
    simp [tasks, stream]
  | begin before after handle e inHand cancelled =>
    refine .quiet ((tasks_perm_of_inHand before after inHand).trans ?_) rfl rfl rfl rfl
    apply List.Perm.symm
    apply tasks_perm_of_begun [] s.begun rfl
  | skip before after handle e inHand cancelled =>
    exact .finish handle e _ (tasks_perm_of_inHand before after inHand) (.refl _) (.inr cancelled) rfl rfl rfl rfl
  | callerRequest before after handle column r next begun =>
    exact .reply handle column r next _ (tasks_perm_of_begun before after begun)
      (tasks_perm_of_begun before after rfl) rfl rfl rfl rfl
  | callerPublish before after handle column nodes begun =>
    exact .publish handle column nodes _ (tasks_perm_of_begun before after begun)
      (tasks_perm_of_begun before after rfl) rfl rfl rfl rfl
  | callerFinish before after handle column begun =>
    exact .finish handle _ _ (tasks_perm_of_begun before after begun) (.refl _) (.inl (not_isSearching column)) rfl rfl
      rfl rfl

/-- The selections that stand are left alone by work, and the provider stays the same. -/
theorem Work.keeps (hwork : Work s s') :
  s'.standing = s.standing ∧ s'.navigation.workspace.provider = s.navigation.workspace.provider
  := by
  cases hwork with
  | focus column => exact ⟨rfl, (Shows.focus s.navigation column).provider⟩
  | render => exact ⟨rfl, (Shows.stepRender s.navigation).provider⟩
  | start running =>
    refine ⟨rfl, ?_⟩
    simp only [Navigation.stepExpansion, show s.navigation.frontier.expansions.running = none from running]
    rfl
  | publish handle column nodes running =>
    rw [Navigation.stepExpansion_of_done running]
    exact ⟨rfl, rfl⟩
  | finish handle column running =>
    rw [Navigation.stepExpansion_of_settled running]
    exact ⟨rfl, rfl⟩
  | request handle column r next running => exact ⟨rfl, s.navigation.workspace.perform_provider r⟩
  | callerRequest before after handle column r next begun =>
    exact ⟨rfl, s.navigation.workspace.perform_provider r⟩
  | _ => exact ⟨rfl, rfl⟩

end Session

end CallGraph
