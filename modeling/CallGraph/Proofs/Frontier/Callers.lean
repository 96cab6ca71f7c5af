import CallGraph.Proofs.Frontier.Session
import CallGraph.Proofs.Frontier.Worker

/-!
# Callers and workers as runs of a session

What a caller does when it selects a row, and what the worker of the expansion stream does in one go, are
runs of a session: a command followed by work, or work alone.  So what holds of every session that can come
about holds of navigations that are used from a single thread.
-/

namespace CallGraph

namespace Session

open Relation (ReflTransGen)

variable {σ : Type} {s : Session σ}

/-- A caller's own run of work: it leads to a navigation, and what callers have in hand and run is afterwards
as given. -/
def Leads (s : Session σ) (n : Navigation σ) (inHand begun : List (Token × Expansion)) : Prop :=
  ∃ s', ReflTransGen Work s s' ∧ s'.navigation = n ∧ s'.inHand = inHand ∧ s'.begun = begun

/-- Work before a run of work. -/
theorem Leads.head {s' : Session σ} {n : Navigation σ} {inHand begun : List (Token × Expansion)}
    (hwork : Work s s') (h : s'.Leads n inHand begun) :
  s.Leads n inHand begun
  := by
  obtain ⟨s'', hrun, hrest⟩ := h
  exact ⟨s'', hrun.head hwork, hrest⟩

/-! ### Callers -/

/-- A search on a caller's thread is run to its end. -/
theorem works_run {handle : Token} {column : Nat} (search : Search (List Node))
    {rest : List (Token × Expansion)} (hbegun : s.begun = (handle, ⟨column, .searching search⟩) :: rest) :
  ReflTransGen Work s
    { s with
      begun := (handle, ⟨column, .searching (.done (s.navigation.workspace.run search).1)⟩) :: rest
      navigation := { s.navigation with workspace := (s.navigation.workspace.run search).2 } }
  := by
  induction search generalizing s with
  | done nodes =>
      rw [Workspace.run, ← hbegun]
  | wait r next ih =>
      apply ReflTransGen.head (.callerRequest s [] rest handle column r next hbegun)
      apply ih
      rfl

/-- An expansion in a caller's hand is run to its end on the caller's thread. -/
theorem leads_runExpansion {handle : Token} {column : Nat} {search : Search (List Node)}
    {rest : List (Token × Expansion)} (hinHand : s.inHand = (handle, ⟨column, .searching search⟩) :: rest) :
  s.Leads (s.navigation.runExpansion handle ⟨column, .searching search⟩) rest s.begun
  := by
  rw [Navigation.runExpansion]
  split
  case isTrue hcancelled =>
    exact ⟨_, .single (.skip s [] rest handle _ hinHand hcancelled), rfl, rfl, rfl⟩
  case isFalse huncancelled =>
    have hrun := works_run (s := { s with
      inHand := rest
      begun := (handle, ⟨column, .searching search⟩) :: s.begun }) search rfl
    have hpublished := hrun.tail (.callerPublish _ [] s.begun handle column _ rfl)
    have hfinished := hpublished.tail (.callerFinish _ [] s.begun handle column rfl)
    apply Leads.head (.begin s [] rest handle _ hinHand ((Bool.not_eq_true _).mp huncancelled))
    exact ⟨_, hfinished, rfl, rfl, rfl⟩

/-- An expansion in a caller's hand is handed to the stream or run at once. -/
theorem leads_submit {handle : Token} {column : Nat} {search : Search (List Node)}
    {rest : List (Token × Expansion)} (hinHand : s.inHand = (handle, ⟨column, .searching search⟩) :: rest) :
  s.Leads (s.navigation.submit handle ⟨column, .searching search⟩) rest s.begun
  := by
  apply Leads.head (.configure s)
  change Leads _ (if s.navigation.workspace.getConfig.1.multithreading then _ else _) _ _
  split
  case isTrue => exact ⟨_, .single (.submit _ [] rest handle _ hinHand), rfl, rfl, rfl⟩
  case isFalse => exact leads_runExpansion hinHand

/-- Selecting a row is a command followed by work. -/
theorem leads_selectWith (s : Session σ) (strict : Bool) (column row : Nat) :
  (s.perform (.select column row)).Leads (s.navigation.selectWith strict column row).2 s.inHand s.begun
  := by
  simp only [perform, Navigation.selectWith, Navigation.choose]
  cases s.navigation.frontier.choose column row s.navigation.workspace.freshToken.1
      s.navigation.workspace.freshToken.2.searches with
  | error e => exact ⟨s, .refl, rfl, rfl, rfl⟩
  | ok chosen =>
      apply Leads.head (.focus _ column)
      cases strict with
      | true => apply leads_runExpansion rfl
      | false => apply leads_submit rfl

end Session

end CallGraph

/-!
## Draining

A search makes finitely many requests, so whatever callers have in hand and the stream holds can be brought to
its end by work alone.
-/

namespace CallGraph

namespace Session

open Relation (ReflTransGen)

variable {σ : Type}

/-- What callers have in hand can be taken up or skipped. -/
theorem exists_works_inHand (s : Session σ) :
  ∃ s', ReflTransGen Work s s' ∧ s'.inHand = []
  := by
  generalize hinHand : s.inHand = inHand
  induction inHand generalizing s with
  | nil => exact ⟨s, .refl, hinHand⟩
  | cons first rest ih =>
      obtain ⟨handle, e⟩ := first
      have hrest : ∀ s₁, Work s s₁ → s₁.inHand = rest → ∃ s', ReflTransGen Work s s' ∧ s'.inHand = [] := by
        intro s₁ hwork hinHand₁
        obtain ⟨s', hworks, hnil⟩ := ih s₁ hinHand₁
        exact ⟨s', hworks.head hwork, hnil⟩
      cases hcancelled : s.searches.isCancelled handle with
      | true => apply hrest _ (.skip s [] rest handle e hinHand hcancelled) rfl
      | false => apply hrest _ (.begin s [] rest handle e hinHand hcancelled) rfl

/-- What callers took up can be ended. -/
theorem exists_works_begun (s : Session σ) :
  ∃ s', ReflTransGen Work s s' ∧ s'.inHand = s.inHand ∧ s'.begun = []
  := by
  generalize hbegun : s.begun = begun
  induction begun generalizing s with
  | nil => exact ⟨s, .refl, rfl, hbegun⟩
  | cons first rest ih =>
      obtain ⟨handle, column, stage⟩ := first
      have hrest : ∀ s₁, ReflTransGen Work s s₁ → s₁.inHand = s.inHand → s₁.begun = rest →
          ∃ s', ReflTransGen Work s s' ∧ s'.inHand = s.inHand ∧ s'.begun = [] := by
        intro s₁ hworks₁ hinHand₁ hbegun₁
        obtain ⟨s', hworks, hinHand, hnil⟩ := ih s₁ hbegun₁
        exact ⟨s', hworks₁.trans hworks, hinHand.trans hinHand₁, hnil⟩
      cases stage with
      | settled => apply hrest _ (.single (.callerFinish s [] rest handle column hbegun)) rfl rfl
      | searching search =>
          have hrun := works_run search hbegun
          have hpublished := hrun.tail (.callerPublish _ [] rest handle column _ rfl)
          apply hrest _ (hpublished.tail (.callerFinish _ [] rest handle column rfl)) rfl rfl

/-- A search that the worker runs can be run to its end. -/
theorem works_search {s : Session σ} {handle : Token} {column : Nat} (search : Search (List Node))
    (hrunning : s.stream.running = some (handle, ⟨column, .searching search⟩)) :
  ∃ s' nodes, ReflTransGen Work s s' ∧ s'.inHand = s.inHand ∧ s'.begun = s.begun ∧
    s'.stream = s.stream.resume ⟨column, .searching (.done nodes)⟩
  := by
  induction search generalizing s with
  | done nodes => exact ⟨s, nodes, .refl, rfl, rfl, (TaskStream.resume_running hrunning).symm⟩
  | wait r next ih =>
      obtain ⟨s', nodes, hworks, hinHand, hbegun, hstream⟩ := ih (s.reply r).1
        (s := (s.reply r).2.resume ⟨column, .searching (next (s.reply r).1)⟩)
        (TaskStream.running_resume hrunning _)
      use s', nodes, hworks.head (.request s handle column r next hrunning)
      refine ⟨hinHand, hbegun, hstream.trans ?_⟩
      apply TaskStream.resume_resume _ _ _

/-- An expansion that the worker runs is ended once its list was published or thrown away. -/
theorem exists_work_settled {s : Session σ} {handle : Token} {column : Nat}
    (hrunning : s.stream.running = some (handle, ⟨column, .settled⟩)) :
  ∃ s', Work s s' ∧ s'.inHand = s.inHand ∧ s'.begun = s.begun ∧ s'.stream = { s.stream with running := none }
  := by
  have hfinish := Work.finish s handle column hrunning
  rw [Navigation.stepExpansion_of_settled hrunning] at hfinish
  exact ⟨_, hfinish, rfl, rfl, rfl⟩

/-- What a search that the worker runs found is published or thrown away. -/
theorem exists_work_done {s : Session σ} {handle : Token} {column : Nat} {nodes : List Node}
    (hrunning : s.stream.running = some (handle, ⟨column, .searching (.done nodes)⟩)) :
  ∃ s', Work s s' ∧ s'.inHand = s.inHand ∧ s'.begun = s.begun ∧
    s'.stream = s.stream.resume ⟨column, .settled⟩
  := by
  have hpublish := Work.publish s handle column nodes hrunning
  rw [Navigation.stepExpansion_of_done hrunning] at hpublish
  exact ⟨_, hpublish, rfl, rfl, rfl⟩

/-- What the worker runs can be ended. -/
theorem exists_works_running (s : Session σ) :
  ∃ s', ReflTransGen Work s s' ∧ s'.inHand = s.inHand ∧ s'.begun = s.begun ∧
    s'.stream = { s.stream with running := none }
  := by
  cases hrunning : s.stream.running with
  | none =>
      refine ⟨s, .refl, rfl, rfl, ?_⟩
      rw [← hrunning]
  | some running =>
      obtain ⟨handle, column, stage⟩ := running
      cases stage with
      | settled =>
          obtain ⟨s', hwork, hrest⟩ := exists_work_settled hrunning
          exact ⟨s', .single hwork, hrest⟩
      | searching search =>
          obtain ⟨s₁, nodes, hworks₁, hinHand₁, hbegun₁, hstream₁⟩ := works_search search hrunning
          have hrunning₁ := TaskStream.running_resume hrunning ⟨column, .searching (.done nodes)⟩
          rw [← hstream₁] at hrunning₁
          obtain ⟨s₂, hwork₂, hinHand₂, hbegun₂, hstream₂⟩ := exists_work_done hrunning₁
          have hrunning₂ := TaskStream.running_resume hrunning₁ ⟨column, .settled⟩
          rw [← hstream₂] at hrunning₂
          obtain ⟨s₃, hwork₃, hinHand₃, hbegun₃, hstream₃⟩ := exists_work_settled hrunning₂
          use s₃, (hworks₁.tail hwork₂).tail hwork₃
          refine ⟨(hinHand₃.trans hinHand₂).trans hinHand₁, (hbegun₃.trans hbegun₂).trans hbegun₁, ?_⟩
          rw [hstream₃, hstream₂, hstream₁]
          rfl

/-- What waits for the worker can be started and ended. -/
theorem exists_works_waiting (s : Session σ) (hrunning : s.stream.running = none) :
  ∃ s', ReflTransGen Work s s' ∧ s'.inHand = s.inHand ∧ s'.begun = s.begun ∧ s'.stream.waiting = [] ∧
    s'.stream.running = none
  := by
  generalize hwaiting : s.stream.waiting = waiting
  induction waiting generalizing s with
  | nil => exact ⟨s, .refl, rfl, rfl, hwaiting, hrunning⟩
  | cons first rest ih =>
      obtain ⟨handle, e⟩ := first
      have hrest : ∀ s₁, Work s s₁ → s₁.inHand = s.inHand → s₁.begun = s.begun → s₁.stream.waiting = rest →
          ∃ s', ReflTransGen Work s s' ∧ s'.inHand = s.inHand ∧ s'.begun = s.begun ∧
            s'.stream.waiting = [] ∧ s'.stream.running = none := by
        intro s₁ hwork hinHand₁ hbegun₁ hwaiting₁
        obtain ⟨s₂, hworks₂, hinHand₂, hbegun₂, hstream₂⟩ := s₁.exists_works_running
        have hrunning₂ : s₂.stream.running = none := by rw [hstream₂]
        have hwaiting₂ : s₂.stream.waiting = rest := by
          rw [hstream₂]
          apply hwaiting₁
        obtain ⟨s', hworks, hinHand, hbegun, hend⟩ := ih s₂ hrunning₂ hwaiting₂
        use s', (hworks₂.head hwork).trans hworks
        exact ⟨(hinHand.trans hinHand₂).trans hinHand₁, (hbegun.trans hbegun₂).trans hbegun₁, hend⟩
      have hstart := Work.start s hrunning
      cases hcancelled : s.searches.isCancelled handle with
      | true =>
          rw [Navigation.stepExpansion_of_cancelled hrunning hwaiting hcancelled] at hstart
          apply hrest _ hstart rfl rfl rfl
      | false =>
          rw [Navigation.stepExpansion_of_uncancelled hrunning hwaiting hcancelled] at hstart
          apply hrest _ hstart rfl rfl rfl

/-- Work can always go on until nothing is left to do. -/
theorem exists_works_isDrained (s : Session σ) :
  ∃ s', ReflTransGen Work s s' ∧ s'.IsDrained
  := by
  obtain ⟨s₁, hworks₁, hinHand₁⟩ := s.exists_works_inHand
  obtain ⟨s₂, hworks₂, hinHand₂, hbegun₂⟩ := s₁.exists_works_begun
  obtain ⟨s₃, hworks₃, hinHand₃, hbegun₃, hstream₃⟩ := s₂.exists_works_running
  obtain ⟨s₄, hworks₄, hinHand₄, hbegun₄, hwaiting₄, hrunning₄⟩ :=
    s₃.exists_works_waiting (by rw [hstream₃])
  use s₄, ((hworks₁.trans hworks₂).trans hworks₃).trans hworks₄
  rw [IsDrained, tasks, hinHand₄, hinHand₃, hinHand₂, hinHand₁, hbegun₄, hbegun₃, hbegun₂, hwaiting₄,
    hrunning₄]
  rfl

end Session

end CallGraph
