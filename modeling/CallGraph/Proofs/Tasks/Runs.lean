import CallGraph.Proofs.Tasks.Turns

/-!
# Runs of task streams

Whatever the caller of a task stream, its worker and others do in turn, the worker and the caller each run one task at
a time, in the order in which they were submitted, and so do both together unless a task is left to the caller while
the worker has some to do.
-/

namespace CallGraph

namespace Turns

variable {τ : Type} {q q' : Turns τ} {handle : Token} {journal : List Event}

/-- What was put on record stays there. -/
theorem Step.grows (h : Step q q') :
  q.journal <+: q'.journal
  := by
  cases h with
  | submit l handle task free unused unfinished chosen => exact List.prefix_append _ _
  | take l handle task rest running waiting => exact List.prefix_append _ _
  | drop handle task rest running waiting => exact List.prefix_append _ _
  | finish l handle task running => exact List.prefix_append _ _
  | resume | make | cancel | set => exact List.prefix_refl _

/-- Whatever is left to the caller in time was so before. -/
theorem IsPatient.of_grown {journal' : List Event} (h : IsPatient journal') (hle : journal <+: journal') :
  IsPatient journal
  :=
  fun before handle hbefore => h before handle (hbefore.trans hle)

theorem Run.orderly (h : Run q q') (horderly : q.Orderly) :
  q'.Orderly
  := by
  induction h with
  | refl => exact horderly
  | tail _ hstep ih => exact ih.step hstep

theorem Run.inOrder (h : Run q q') (horderly : q.Orderly) (hinOrder : q.InOrder) (hpatient : IsPatient q'.journal) :
  q'.InOrder
  := by
  induction h with
  | refl => exact hinOrder
  | tail hrun hstep ih =>
    exact (ih (hpatient.of_grown hstep.grows)).step (Run.orderly hrun horderly) hstep hpatient

/-- A task that is cancelled stays so, and its turn is no start. -/
theorem Step.cancelled (h : Step q q') {k : Token} (hcancelled : q.signals.isCancelled k = true) (hk : k ∉ q.starts) :
  q'.signals.isCancelled k = true ∧ k ∉ q'.starts
  := by
  have helsewhere {l : Lane} {s : Stage} {handle : Token} (hs : s ∉ [Stage.started]) :
      k ∉ handles lanes [.started] (q.journal ++ [⟨l, s, handle⟩]) := by
    rw [handles_elsewhere hs]
    exact hk
  cases h with
  | submit l handle task free unused unfinished chosen => exact ⟨hcancelled, helsewhere (by decide)⟩
  | take l handle task rest running waiting =>
    cases hskipped : q.signals.isCancelled handle with
    | true =>
      rw [TaskStream.start_of_cancelled running waiting hskipped]
      exact ⟨(q.signals.isCancelled_finish handle k).trans hcancelled, helsewhere (by decide)⟩
    | false =>
      rw [TaskStream.start_of_uncancelled running waiting hskipped]
      refine ⟨hcancelled, fun hmem => ?_⟩
      rw [starts, advance, if_neg Bool.false_ne_true, handles_concat (mem_lanes l) List.mem_cons_self] at hmem
      rcases List.mem_append.mp hmem with hmem | hmem
      · exact hk hmem
      · rw [List.mem_singleton.mp hmem, hskipped] at hcancelled
        cases hcancelled
  | drop handle task rest running waiting =>
    exact ⟨(q.signals.isCancelled_finish handle k).trans hcancelled, helsewhere (by decide)⟩
  | resume | set => exact ⟨hcancelled, hk⟩
  | finish l handle task running =>
    rw [TaskStream.finish_of_running running]
    exact ⟨(q.signals.isCancelled_finish handle k).trans hcancelled, helsewhere (by decide)⟩
  | make => exact ⟨(q.signals.isCancelled_fresh k).trans hcancelled, hk⟩
  | cancel t => exact ⟨(q.signals.isCancelled_cancel t k).mpr (.inr hcancelled), hk⟩

theorem Run.not_mem_starts (h : Run q q') {k : Token} (hcancelled : q.signals.isCancelled k = true)
    (hk : k ∉ q.starts) :
  k ∉ q'.starts
  := by
  have hkept : q'.signals.isCancelled k = true ∧ k ∉ q'.starts := by
    induction h with
    | refl => exact ⟨hcancelled, hk⟩
    | tail _ hstep ih => exact hstep.cancelled ih.1 ih.2
  exact hkept.2

/-- One task runs at a time, in turn. -/
structure KeepsTurns (q : Turns τ) : Prop where
  /-- Neither the worker nor the caller runs two tasks at a time. -/
  alone : ∀ l, (underWayIn l q.journal).length ≤ 1
  /-- Either of them starts tasks in the order of their submission. -/
  inTurn : ∀ l, (handles [l] [.started] q.journal).Sublist (handles [l] [.submitted] q.journal)
  /-- Together they do so as well if no task is left to the caller too soon. -/
  together : IsPatient q.journal → q.underWay.length ≤ 1 ∧ q.starts.Sublist q.submissions
  once : q.starts.Nodup
  /-- A task that was cancelled before its turn never runs. -/
  cancelled : ∀ k, q.signals.isCancelled k = true → k ∉ q.starts → ∀ q', Run q q' → k ∉ q'.starts
  skipped : ∀ k ∈ handles lanes [.skipped] q.journal, k ∉ q.starts
  /-- A handle is finished exactly if its task has returned or was skipped. -/
  finished : ∀ k ∈ q.submissions, q.signals.isFinished k = true ↔ k ∈ handles lanes [.returned, .skipped] q.journal

theorem length_current_le (stream : TaskStream τ) :
  stream.current.length ≤ 1
  := by
  rw [TaskStream.current, List.length_map]
  exact Option.length_toList_le

/-- However the caller, the worker and others take turns, the tasks keep theirs. -/
theorem Reached.keepsTurns (h : q.Reached) :
  q.KeepsTurns
  := by
  obtain ⟨name, signals, multithreading, hrun⟩ := h
  have hnew := orderly_new (τ := τ) name signals multithreading
  have horderly := hrun.orderly hnew
  refine ⟨fun l => ?_, fun l => ?_, fun hpatient => ?_, ?_, ?_, fun k hk => horderly.not_mem_starts hk,
    horderly.finished⟩
  · rw [(horderly.inLane l).current]
    exact length_current_le _
  · rw [(horderly.inLane l).ahead]
    exact (handles_sublist (List.Subset.refl _) (by simp)).trans (List.sublist_append_left _ _)
  · obtain ⟨hahead, l, hidle⟩ := hrun.inOrder hnew ⟨rfl, .worker, rfl⟩ hpatient
    constructor
    · have hcurrent : (q.lane l).current = [] := by
        rw [TaskStream.current, (TaskStream.isIdle_iff.mp hidle).2]
        rfl
      rw [underWay, (horderly.inLane .worker).current, (horderly.inLane .caller).current]
      cases l with
      | worker =>
        rw [hcurrent]
        exact length_current_le _
      | caller =>
        rw [hcurrent, List.append_nil]
        exact length_current_le _
    · rw [hahead]
      exact (handles_sublist (List.Subset.refl _) (by simp)).trans (List.sublist_append_left _ _)
  · exact horderly.once.sublist (handles_sublist (List.Subset.refl _) (by simp))
  · exact fun k hcancelled hk q' hafter => hafter.not_mem_starts hcancelled hk

/-- A task is cancelled while it waits behind another one, and is skipped; a later one is left to the caller when all
is done. -/
theorem Reached.keepsTurns_skipped :
  ∃ q : Turns Unit, q.Reached ∧ q.starts = [.root 0, .root 2] ∧ handles lanes [.skipped] q.journal = [.root 1] ∧
    handles [.caller] [.submitted] q.journal = [.root 2] ∧ q.KeepsTurns
  := by
  have hfirst := ((reached_new "stream" {} true).step
    (.submit _ .worker (.root 0) () rfl (by decide) rfl (.inl rfl))).step (.take _ .worker (.root 0) () [] rfl rfl)
  have hsecond := (hfirst.step (.submit _ .worker (.root 1) () rfl (by decide) rfl (.inl rfl))).step
    (.cancel _ (.root 1))
  have hskipped := (hsecond.step (.finish _ .worker (.root 0) () rfl)).step
    (.take _ .worker (.root 1) () [] rfl rfl)
  have hthird := ((hskipped.step (.set _ false)).step
    (.submit _ .caller (.root 2) () rfl (by decide) rfl (.inl rfl))).step (.take _ .caller (.root 2) () [] rfl rfl)
  exact ⟨_, hthird, rfl, rfl, rfl, hthird.keepsTurns⟩

/-- A task that is left to the caller while the worker has some overlaps with the one that runs there, and goes before
the one that waits there. -/
theorem not_alone_left :
  ∃ q q' : Turns Unit, q.Reached ∧ Run q q' ∧ q.underWay = [.root 0, .root 2] ∧
    q'.submissions = [.root 0, .root 1, .root 2] ∧ q'.starts = [.root 0, .root 2, .root 1] ∧
    ¬ q.underWay.length ≤ 1 ∧ ¬ q'.starts.Sublist q'.submissions
  := by
  have hfirst := ((reached_new "stream" {} true).step
    (.submit _ .worker (.root 0) () rfl (by decide) rfl (.inl rfl))).step (.take _ .worker (.root 0) () [] rfl rfl)
  have hsecond := hfirst.step (.submit _ .worker (.root 1) () rfl (by decide) rfl (.inl rfl))
  have hthird := ((hsecond.step (.set _ false)).step
    (.submit _ .caller (.root 2) () rfl (by decide) rfl (.inl rfl))).step (.take _ .caller (.root 2) () [] rfl rfl)
  refine ⟨_, _, hthird, Relation.ReflTransGen.tail (.tail (.tail .refl (.finish _ .caller (.root 2) () rfl))
    (.finish _ .worker (.root 0) () rfl)) (.take _ .worker (.root 1) () [] rfl rfl), rfl, rfl, rfl, ?_⟩
  exact ⟨by decide, by decide⟩

end Turns

end CallGraph
