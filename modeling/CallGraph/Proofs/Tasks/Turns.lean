import CallGraph.Proofs.Signals
import CallGraph.Proofs.Tasks
import Mathlib.Data.List.Nodup
import Mathlib.Logic.Function.Basic
import Mathlib.Logic.Relation

/-!
# Turns of tasks

One caller submits tasks to a stream, one after another.  With multithreading on a task waits for the worker of the
stream.  With multithreading off the caller runs it before it goes on, and so it does if there is no worker and none
can be had.  The setting is read anew with each task; it changes, and tokens are cancelled, at any time, and the worker
goes on in any interleaving with the caller.

Either of the two has its tasks in the order in which they were submitted.  All tasks together are in this order unless
one is left to the caller while the worker has some to do.
-/

namespace CallGraph

/-- Who runs a task. -/
inductive Turns.Lane where
  | worker
  | caller
  deriving DecidableEq

/-- What becomes of a task. -/
inductive Turns.Stage where
  | submitted
  | started
  | returned
  /-- It is never to run, though it was submitted. -/
  | skipped
  deriving DecidableEq

/-- What became of the task of a handle, and who runs it. -/
structure Turns.Event where
  lane : Lane
  stage : Stage
  handle : Token

/-- A task stream in use, and what became of its tasks so far.  What the caller runs itself is held like a second
stream, in which at most one task waits or runs. -/
structure Turns (τ : Type) where
  lane : Turns.Lane → TaskStream τ
  signals : Signals
  multithreading : Bool
  journal : List Turns.Event := []

namespace TaskStream

variable {τ : Type} {s : TaskStream τ}

/-- A stream is idle if no task waits or runs. -/
theorem isIdle_iff :
  s.isIdle = true ↔ s.waiting = [] ∧ s.running = none
  := by
  rw [isIdle, Bool.and_eq_true, List.isEmpty_iff, Option.isNone_iff_eq_none]

/-- The handle of the task that runs, if there is one. -/
def current (s : TaskStream τ) : List Token :=
  s.running.toList.map (·.1)

/-- The handles of the tasks that wait, the oldest first. -/
def ahead (s : TaskStream τ) : List Token :=
  s.waiting.map (·.1)

/-- A task that goes on stays where it is. -/
theorem alike_resume (s : TaskStream τ) (task : τ) :
  (s.resume task).ahead = s.ahead ∧ (s.resume task).current = s.current ∧ (s.resume task).isIdle = s.isIdle
  := by
  refine ⟨rfl, ?_⟩
  rw [current, current, isIdle, isIdle, resume]
  cases s.running <;> exact ⟨rfl, rfl⟩

end TaskStream

namespace Turns

/-! ### What became of tasks -/

/-- The handles of the tasks of some lanes that came to one of some stages, in the order in which they did. -/
def handles (lanes : List Lane) (stages : List Stage) (journal : List Event) : List Token :=
  (journal.filter fun e => decide (e.lane ∈ lanes ∧ e.stage ∈ stages)).map (·.handle)

/-- All lanes. -/
abbrev lanes : List Lane :=
  [.worker, .caller]

variable {ls ls' : List Lane} {ss ss' : List Stage} {journal : List Event} {l l' : Lane} {s : Stage} {handle : Token}

theorem handles_concat (hl : l ∈ ls) (hs : s ∈ ss) :
  handles ls ss (journal ++ [⟨l, s, handle⟩]) = handles ls ss journal ++ [handle]
  := by
  rw [handles, List.filter_append, List.map_append, List.filter_singleton, decide_eq_true (And.intro hl hs)]
  rfl

theorem handles_concat_of_not_mem (h : ¬ (l ∈ ls ∧ s ∈ ss)) :
  handles ls ss (journal ++ [⟨l, s, handle⟩]) = handles ls ss journal
  := by
  rw [handles, List.filter_append, List.map_append, List.filter_singleton, decide_eq_false h]
  exact List.append_nil _

/-- What comes to another stage leaves the handles as they are. -/
theorem handles_elsewhere (hs : s ∉ ss) :
  handles ls ss (journal ++ [⟨l, s, handle⟩]) = handles ls ss journal
  :=
  handles_concat_of_not_mem fun h => hs h.2

theorem mem_handles :
  handle ∈ handles ls ss journal ↔ ∃ e ∈ journal, (e.lane ∈ ls ∧ e.stage ∈ ss) ∧ e.handle = handle
  := by
  simp only [handles, List.mem_map, List.mem_filter, decide_eq_true_eq, and_assoc]

theorem mem_handles_pair {s s' : Stage} :
  handle ∈ handles ls [s, s'] journal ↔ handle ∈ handles ls [s] journal ∨ handle ∈ handles ls [s'] journal
  := by
  simp only [mem_handles, List.mem_pair, List.mem_singleton, and_or_left, or_and_right, exists_or]

theorem mem_lanes (l : Lane) :
  l ∈ lanes
  := by
  cases l <;> decide

theorem handles_sublist (hlanes : ls ⊆ ls') (hstages : ss ⊆ ss') :
  (handles ls ss journal).Sublist (handles ls' ss' journal)
  := by
  apply List.Sublist.map
  apply List.monotone_filter_right
  intro e he
  rw [decide_eq_true_eq] at he ⊢
  exact ⟨hlanes he.1, hstages he.2⟩

/-- A handle that comes only once to some stages in some lanes does so by one event. -/
theorem eq_of_nodup (h : (handles ls ss journal).Nodup) {e e' : Event} (he : e ∈ journal) (he' : e' ∈ journal)
    (hstage : e.lane ∈ ls ∧ e.stage ∈ ss) (hstage' : e'.lane ∈ ls ∧ e'.stage ∈ ss) (hhandle : e.handle = e'.handle) :
  e = e'
  :=
  List.inj_on_of_nodup_map h (List.mem_filter.mpr ⟨he, decide_eq_true hstage⟩)
    (List.mem_filter.mpr ⟨he', decide_eq_true hstage'⟩) hhandle

/-- The handles of the tasks of a lane that have started and not returned. -/
def underWayIn (l : Lane) (journal : List Event) : List Token :=
  (handles [l] [.started] journal).filter (· ∉ handles [l] [.returned] journal)

/-- Whatever is left to the caller finds no task with the worker that has neither returned nor been skipped. -/
def IsPatient (journal : List Event) : Prop :=
  ∀ before handle, before ++ [⟨.caller, .submitted, handle⟩] <+: journal →
    ∀ k ∈ handles [.worker] [.submitted] before, k ∈ handles [.worker] [.returned, .skipped] before

/-! ### A stream in use -/

variable {τ : Type} {q q' : Turns τ} {task : τ} {rest : List (Token × τ)}

/-- The handles of all tasks that were submitted. -/
def submissions (q : Turns τ) : List Token :=
  handles lanes [.submitted] q.journal

/-- The handles of all tasks that were started. -/
def starts (q : Turns τ) : List Token :=
  handles lanes [.started] q.journal

/-- The handles of all tasks that have started and not returned. -/
def underWay (q : Turns τ) : List Token :=
  underWayIn .worker q.journal ++ underWayIn .caller q.journal

/-- Something becomes of a task of a lane. -/
def advance (q : Turns τ) (l : Lane) (s : Stage) (handle : Token) (result : TaskStream τ × Signals) : Turns τ :=
  { q with lane := Function.update q.lane l result.1, signals := result.2, journal := q.journal ++ [⟨l, s, handle⟩] }

/-- Who is to run the next task. -/
def chosen (q : Turns τ) : Lane :=
  if q.multithreading then .worker else .caller

theorem lane_advance_self (q : Turns τ) (l : Lane) (s : Stage) (handle : Token) (result : TaskStream τ × Signals) :
  (q.advance l s handle result).lane l = result.1
  :=
  (Function.update_apply q.lane l result.1 l).trans (if_pos rfl)

theorem lane_advance_of_ne (q : Turns τ) (hl : l' ≠ l) (s : Stage) (handle : Token) (result : TaskStream τ × Signals) :
  (q.advance l s handle result).lane l' = q.lane l'
  :=
  (Function.update_apply q.lane l result.1 l').trans (if_neg hl)

/-- A task that goes on stays where it is, in every lane. -/
theorem alike_update (q : Turns τ) (l l' : Lane) (task : τ) :
  (Function.update q.lane l ((q.lane l).resume task) l').ahead = (q.lane l').ahead ∧
    (Function.update q.lane l ((q.lane l).resume task) l').current = (q.lane l').current ∧
    (Function.update q.lane l ((q.lane l).resume task) l').isIdle = (q.lane l').isIdle
  := by
  rw [Function.update_apply]
  split
  case isTrue hl =>
    subst hl
    exact TaskStream.alike_resume _ task
  case isFalse => exact ⟨rfl, rfl, rfl⟩

/-- What goes on between two moments. -/
inductive Step : Turns τ → Turns τ → Prop where
  /-- A task is submitted under a handle of its own.  The caller, who has returned from the tasks that it ran itself,
  takes it if it is chosen to, or if there is no worker. -/
  | submit (q : Turns τ) (l : Lane) (handle : Token) (task : τ) (free : (q.lane .caller).isIdle = true)
      (unused : handle ∉ q.submissions) (unfinished : q.signals.isFinished handle = false)
      (chosen : l = q.chosen ∨ l = .caller ∧ (q.lane .worker).isIdle = true) :
      Step q (q.advance l .submitted handle ((q.lane l).submit handle task, q.signals))
  /-- The turn of the next task comes. -/
  | take (q : Turns τ) (l : Lane) (handle : Token) (task : τ) (rest : List (Token × τ))
      (running : (q.lane l).running = none) (waiting : (q.lane l).waiting = (handle, task) :: rest) :
      Step q (q.advance l (if q.signals.isCancelled handle then .skipped else .started) handle
        ((q.lane l).start q.signals))
  /-- The worker is lost, which drops the tasks that wait for it. -/
  | drop (q : Turns τ) (handle : Token) (task : τ) (rest : List (Token × τ))
      (running : (q.lane .worker).running = none) (waiting : (q.lane .worker).waiting = (handle, task) :: rest) :
      Step q (q.advance .worker .skipped handle ({ q.lane .worker with waiting := rest }, q.signals.finish handle))
  /-- A task goes on. -/
  | resume (q : Turns τ) (l : Lane) (task : τ) :
      Step q { q with lane := Function.update q.lane l ((q.lane l).resume task) }
  /-- A task returns. -/
  | finish (q : Turns τ) (l : Lane) (handle : Token) (task : τ) (running : (q.lane l).running = some (handle, task)) :
      Step q (q.advance l .returned handle ((q.lane l).finish q.signals))
  /-- A token is made. -/
  | make (q : Turns τ) :
      Step q { q with signals := q.signals.fresh.2 }
  /-- A token is cancelled. -/
  | cancel (q : Turns τ) (t : Token) :
      Step q { q with signals := q.signals.cancel t }
  /-- The setting changes. -/
  | set (q : Turns τ) (multithreading : Bool) :
      Step q { q with multithreading }

/-- Whether a state comes after another one. -/
def Run : Turns τ → Turns τ → Prop :=
  Relation.ReflTransGen Step

/-- A stream to which nothing was submitted. -/
def new (name : String) (signals : Signals) (multithreading : Bool) : Turns τ :=
  { lane := fun _ => { name }, signals, multithreading }

/-- Whether a state comes about from a stream to which nothing was submitted. -/
def Reached (q : Turns τ) : Prop :=
  ∃ name signals multithreading, Run (new name signals multithreading) q

theorem reached_new (name : String) (signals : Signals) (multithreading : Bool) :
  (new name signals multithreading : Turns τ).Reached
  :=
  ⟨name, signals, multithreading, .refl⟩

theorem Reached.step (h : q.Reached) (hstep : Step q q') :
  q'.Reached
  := by
  obtain ⟨name, signals, multithreading, hrun⟩ := h
  exact ⟨name, signals, multithreading, hrun.tail hstep⟩

/-! ### What a step keeps -/

/-- The tasks of a lane wait in the order of their submission behind those whose turn came, and the one that runs is
the one that started and has not returned. -/
structure InLane (journal : List Event) (l : Lane) (stream : TaskStream τ) : Prop where
  ahead : handles [l] [.submitted] journal = handles [l] [.started, .skipped] journal ++ stream.ahead
  current : underWayIn l journal = stream.current
  returned : ∀ k ∈ handles [l] [.returned] journal, k ∈ handles [l] [.started] journal

namespace InLane

variable {stream : TaskStream τ}

/-- What becomes of a task in another lane has no effect. -/
theorem frame (h : InLane journal l stream) (hl : l' ≠ l) (s : Stage) (handle : Token) :
  InLane (journal ++ [⟨l', s, handle⟩]) l stream
  := by
  have hframe (ss : List Stage) : handles [l] ss (journal ++ [⟨l', s, handle⟩]) = handles [l] ss journal :=
    handles_concat_of_not_mem fun hboth => hl (List.mem_singleton.mp hboth.1)
  constructor
  · rw [hframe, hframe]
    exact h.ahead
  · rw [underWayIn, hframe, hframe]
    exact h.current
  · rw [hframe, hframe]
    exact h.returned

/-- A task stays as it is under way if something is neither started nor returns. -/
theorem underWayIn_elsewhere (hs : s ∉ [Stage.started, .returned]) :
  underWayIn l (journal ++ [⟨l', s, handle⟩]) = underWayIn l journal
  := by
  rw [List.mem_pair, not_or] at hs
  rw [underWayIn, handles_elsewhere (by simpa using hs.2), handles_elsewhere (by simpa using hs.1), underWayIn]

theorem submit (h : InLane journal l stream) (handle : Token) (task : τ) :
  InLane (journal ++ [⟨l, .submitted, handle⟩]) l (stream.submit handle task)
  := by
  constructor
  · rw [handles_concat List.mem_cons_self List.mem_cons_self, handles_elsewhere (by decide), h.ahead,
      List.append_assoc]
    simp [TaskStream.ahead, TaskStream.submit]
  · rw [underWayIn_elsewhere (by decide)]
    exact h.current
  · rw [handles_elsewhere (by decide), handles_elsewhere (by decide)]
    exact h.returned

/-- The turn of the first task that waits comes. -/
theorem ahead_concat (h : InLane journal l stream) (hwaiting : stream.waiting = (handle, task) :: rest)
    (hs : s ∈ [Stage.started, .skipped]) :
  handles [l] [.submitted] (journal ++ [⟨l, s, handle⟩]) =
    handles [l] [.started, .skipped] (journal ++ [⟨l, s, handle⟩]) ++ rest.map (·.1)
  := by
  have hs' : s ∉ [Stage.submitted] := by
    rw [List.mem_pair] at hs
    rcases hs with rfl | rfl <;> decide
  rw [handles_elsewhere hs', h.ahead, TaskStream.ahead, hwaiting, List.map_cons,
    handles_concat List.mem_cons_self hs, List.append_assoc, List.singleton_append]

theorem skip (h : InLane journal l stream) (hwaiting : stream.waiting = (handle, task) :: rest) :
  InLane (journal ++ [⟨l, .skipped, handle⟩]) l { stream with waiting := rest }
  := by
  refine ⟨h.ahead_concat hwaiting (by decide), ?_, ?_⟩
  · rw [underWayIn_elsewhere (by decide)]
    exact h.current
  · rw [handles_elsewhere (by decide), handles_elsewhere (by decide)]
    exact h.returned

theorem start (h : InLane journal l stream) (hrunning : stream.running = none)
    (hwaiting : stream.waiting = (handle, task) :: rest) (hnew : handle ∉ handles [l] [.started, .skipped] journal) :
  InLane (journal ++ [⟨l, .started, handle⟩]) l { stream with waiting := rest, running := some (handle, task) }
  := by
  have hreturned : handle ∉ handles [l] [.returned] journal := fun hmem =>
    hnew ((handles_sublist (List.Subset.refl _) (by simp)).subset (h.returned handle hmem))
  have hcurrent : underWayIn l journal = [] := by
    rw [h.current, TaskStream.current, hrunning]
    rfl
  refine ⟨h.ahead_concat hwaiting (by decide), ?_, ?_⟩
  · have hframe : handles [l] [.returned] (journal ++ [⟨l, .started, handle⟩]) = handles [l] [.returned] journal :=
      handles_elsewhere (by decide)
    rw [underWayIn, hframe, handles_concat List.mem_cons_self (by decide), List.filter_append, ← underWayIn, hcurrent,
      List.filter_singleton, decide_eq_true hreturned]
    rfl
  · rw [handles_elsewhere (by decide), handles_concat List.mem_cons_self (by decide)]
    exact fun k hk => List.mem_append_left _ (h.returned k hk)

theorem finish (h : InLane journal l stream) (hrunning : stream.running = some (handle, task)) :
  InLane (journal ++ [⟨l, .returned, handle⟩]) l { stream with running := none }
  := by
  have hcurrent : underWayIn l journal = [handle] := by
    rw [h.current, TaskStream.current, hrunning]
    rfl
  have hstarted : handle ∈ handles [l] [.started] journal :=
    List.mem_of_mem_filter (hcurrent ▸ List.mem_singleton_self handle)
  refine ⟨?_, ?_, ?_⟩
  · rw [handles_elsewhere (by decide), handles_elsewhere (by decide)]
    exact h.ahead
  · -- What was under way before is the task that returns.
    have hleft : (underWayIn l journal).filter (· ≠ handle) = [] := by
      simp [hcurrent]
    rw [underWayIn, List.filter_filter] at hleft
    rw [underWayIn, handles_concat List.mem_cons_self List.mem_cons_self, handles_elsewhere (by decide)]
    refine Eq.trans (List.filter_congr fun k _ => ?_) hleft
    simp [not_or, and_comm]
  · rw [handles_concat List.mem_cons_self (by decide), handles_elsewhere (by decide)]
    intro k hk
    rcases List.mem_append.mp hk with hk | hk
    · exact h.returned k hk
    · exact List.mem_singleton.mp hk ▸ hstarted

end InLane

/-- The lanes are in order, and a handle stands for one task, whose turn comes once. -/
structure Orderly (q : Turns τ) : Prop where
  inLane : ∀ l, InLane q.journal l (q.lane l)
  unused : q.submissions.Nodup
  once : (handles lanes [.started, .skipped] q.journal).Nodup
  finished : ∀ k ∈ q.submissions, q.signals.isFinished k = true ↔ k ∈ handles lanes [.returned, .skipped] q.journal

theorem orderly_new (name : String) (signals : Signals) (multithreading : Bool) :
  (new name signals multithreading : Turns τ).Orderly
  where
  inLane _ := ⟨rfl, rfl, nofun⟩
  unused := List.nodup_nil
  once := List.nodup_nil
  finished := nofun

namespace Orderly

variable (h : q.Orderly)

include h

/-- A task is submitted to one lane only. -/
theorem lane_eq {k : Token} (hk : k ∈ handles [l] [.submitted] q.journal)
    (hk' : k ∈ handles [l'] [.submitted] q.journal) :
  l = l'
  := by
  obtain ⟨e, he, ⟨hlane, hstage⟩, rfl⟩ := mem_handles.mp hk
  obtain ⟨e', he', ⟨hlane', hstage'⟩, hhandle⟩ := mem_handles.mp hk'
  have heq := eq_of_nodup h.unused he he' ⟨mem_lanes _, hstage⟩ ⟨mem_lanes _, hstage'⟩ hhandle.symm
  rw [← List.mem_singleton.mp hlane, ← List.mem_singleton.mp hlane', heq]

/-- Only what was submitted gets a turn, in the same lane. -/
theorem submitted {k : Token} (hk : k ∈ handles [l] [.started, .skipped] q.journal) :
  k ∈ handles [l] [.submitted] q.journal
  := by
  rw [(h.inLane l).ahead]
  exact List.mem_append_left _ hk

/-- The turn of a task that waits has not come. -/
theorem not_mem_of_waiting (hwaiting : (q.lane l).waiting = (handle, task) :: rest) :
  handle ∈ handles [l] [.submitted] q.journal ∧ handle ∉ handles lanes [.started, .skipped] q.journal
  := by
  have hahead : (q.lane l).ahead = handle :: rest.map (·.1) := by
    rw [TaskStream.ahead, hwaiting]
    rfl
  have hsubmitted : handle ∈ handles [l] [.submitted] q.journal := by
    rw [(h.inLane l).ahead, hahead]
    exact List.mem_append_right _ List.mem_cons_self
  refine ⟨hsubmitted, fun hturned => ?_⟩
  obtain ⟨e, he, ⟨-, hstage⟩, rfl⟩ := mem_handles.mp hturned
  have hown : e.handle ∈ handles [e.lane] [.started, .skipped] q.journal :=
    mem_handles.mpr ⟨e, he, ⟨List.mem_singleton_self _, hstage⟩, rfl⟩
  obtain rfl := h.lane_eq (h.submitted hown) hsubmitted
  have hnodup : (handles [e.lane] [.submitted] q.journal).Nodup :=
    h.unused.sublist (handles_sublist (fun l _ => mem_lanes l) (List.Subset.refl _))
  rw [(h.inLane e.lane).ahead, hahead] at hnodup
  exact List.disjoint_of_nodup_append hnodup hown List.mem_cons_self

/-- Whatever becomes of a task, it was submitted. -/
theorem mem_submissions {k : Token} (hk : k ∈ handles ls ss q.journal) :
  k ∈ q.submissions
  := by
  obtain ⟨e, he, -, rfl⟩ := mem_handles.mp hk
  have hmem {ss : List Stage} (hstage : e.stage ∈ ss) : e.handle ∈ handles [e.lane] ss q.journal :=
    mem_handles.mpr ⟨e, he, ⟨List.mem_singleton_self _, hstage⟩, rfl⟩
  have hwiden {k : Token} (hk : k ∈ handles [e.lane] [.submitted] q.journal) : k ∈ q.submissions :=
    (handles_sublist (fun l _ => mem_lanes l) (List.Subset.refl _)).subset hk
  apply hwiden
  cases hstage : e.stage with
  | submitted => exact hmem (by simp [hstage])
  | started => exact h.submitted (hmem (by simp [hstage]))
  | skipped => exact h.submitted (hmem (by simp [hstage]))
  | returned =>
    have hstarted := (h.inLane e.lane).returned e.handle (hmem (by simp [hstage]))
    exact h.submitted ((handles_sublist (List.Subset.refl _) (by simp)).subset hstarted)

/-- What becomes of a task of a lane leaves the other lanes as they are. -/
theorem inLane_advance {result : TaskStream τ × Signals}
    (hstream : InLane (q.journal ++ [⟨l, s, handle⟩]) l result.1) (l' : Lane) :
  InLane (q.advance l s handle result).journal l' ((q.advance l s handle result).lane l')
  := by
  by_cases hl : l' = l
  · subst hl
    rw [lane_advance_self]
    exact hstream
  · rw [lane_advance_of_ne q hl]
    exact (h.inLane l').frame (Ne.symm hl) s handle

theorem submit (hunused : handle ∉ q.submissions) (hunfinished : q.signals.isFinished handle = false) (l : Lane)
    (task : τ) :
  (q.advance l .submitted handle ((q.lane l).submit handle task, q.signals)).Orderly
  := by
  have hsubmissions : handles lanes [.submitted] (q.journal ++ [⟨l, .submitted, handle⟩]) = q.submissions ++ [handle] :=
    handles_concat (mem_lanes l) List.mem_cons_self
  have hturns : handles lanes [.started, .skipped] (q.journal ++ [⟨l, .submitted, handle⟩]) =
      handles lanes [.started, .skipped] q.journal := handles_elsewhere (by decide)
  have hends : handles lanes [.returned, .skipped] (q.journal ++ [⟨l, .submitted, handle⟩]) =
      handles lanes [.returned, .skipped] q.journal := handles_elsewhere (by decide)
  refine ⟨h.inLane_advance ((h.inLane l).submit handle task), ?_, ?_, fun k hk => ?_⟩
  · rw [submissions, advance, hsubmissions]
    exact List.nodup_append_comm.mpr (List.nodup_cons.mpr ⟨hunused, h.unused⟩)
  · rw [advance, hturns]
    exact h.once
  · rw [submissions, advance, hsubmissions] at hk
    rw [advance, hends]
    rcases List.mem_append.mp hk with hk | hk
    · exact h.finished k hk
    · rw [List.mem_singleton.mp hk]
      exact iff_of_false (Bool.eq_false_iff.mp hunfinished) fun hended => hunused (h.mem_submissions hended)

/-- A task that is not to run any more is finished, and the others are as they were. -/
theorem finished_ended (hs : s ∈ [Stage.returned, .skipped]) (l : Lane) {k : Token} (hk : k ∈ q.submissions) :
  (q.signals.finish handle).isFinished k = true ↔
    k ∈ handles lanes [.returned, .skipped] (q.journal ++ [⟨l, s, handle⟩])
  := by
  rw [handles_concat (mem_lanes l) hs, List.mem_append, List.mem_singleton, Signals.isFinished_finish, or_comm,
    h.finished k hk]

/-- The turn of a task comes once. -/
theorem once_turned (hwaiting : (q.lane l).waiting = (handle, task) :: rest) (hs : s ∈ [Stage.started, .skipped]) :
  (handles lanes [.started, .skipped] (q.journal ++ [⟨l, s, handle⟩])).Nodup
  := by
  rw [handles_concat (mem_lanes l) hs]
  exact List.nodup_append_comm.mpr (List.nodup_cons.mpr ⟨(h.not_mem_of_waiting hwaiting).2, h.once⟩)

theorem skip (hwaiting : (q.lane l).waiting = (handle, task) :: rest) :
  (q.advance l .skipped handle ({ q.lane l with waiting := rest }, q.signals.finish handle)).Orderly
  := by
  have hsubmissions : handles lanes [.submitted] (q.journal ++ [⟨l, .skipped, handle⟩]) = q.submissions :=
    handles_elsewhere (by decide)
  refine ⟨h.inLane_advance ((h.inLane l).skip hwaiting), ?_, h.once_turned hwaiting (by decide), fun k hk => ?_⟩
  · rw [submissions, advance, hsubmissions]
    exact h.unused
  · rw [submissions, advance, hsubmissions] at hk
    exact h.finished_ended (by decide) l hk

theorem start (hrunning : (q.lane l).running = none) (hwaiting : (q.lane l).waiting = (handle, task) :: rest) :
  (q.advance l .started handle
    ({ q.lane l with waiting := rest, running := some (handle, task) }, q.signals)).Orderly
  := by
  have hsubmissions : handles lanes [.submitted] (q.journal ++ [⟨l, .started, handle⟩]) = q.submissions :=
    handles_elsewhere (by decide)
  have hends : handles lanes [.returned, .skipped] (q.journal ++ [⟨l, .started, handle⟩]) =
      handles lanes [.returned, .skipped] q.journal := handles_elsewhere (by decide)
  have hnew : handle ∉ handles [l] [.started, .skipped] q.journal := fun hmem =>
    (h.not_mem_of_waiting hwaiting).2
      ((handles_sublist (fun l _ => mem_lanes l) (List.Subset.refl _)).subset hmem)
  refine ⟨h.inLane_advance ((h.inLane l).start hrunning hwaiting hnew), ?_, h.once_turned hwaiting (by decide),
    fun k hk => ?_⟩
  · rw [submissions, advance, hsubmissions]
    exact h.unused
  · rw [submissions, advance, hsubmissions] at hk
    rw [advance, hends]
    exact h.finished k hk

theorem finish (hrunning : (q.lane l).running = some (handle, task)) :
  (q.advance l .returned handle ({ q.lane l with running := none }, q.signals.finish handle)).Orderly
  := by
  have hsubmissions : handles lanes [.submitted] (q.journal ++ [⟨l, .returned, handle⟩]) = q.submissions :=
    handles_elsewhere (by decide)
  have hturns : handles lanes [.started, .skipped] (q.journal ++ [⟨l, .returned, handle⟩]) =
      handles lanes [.started, .skipped] q.journal := handles_elsewhere (by decide)
  refine ⟨h.inLane_advance ((h.inLane l).finish hrunning), ?_, ?_, fun k hk => ?_⟩
  · rw [submissions, advance, hsubmissions]
    exact h.unused
  · rw [advance, hturns]
    exact h.once
  · rw [submissions, advance, hsubmissions] at hk
    exact h.finished_ended (by decide) l hk

/-- What changes neither the journal nor the tasks of a lane nor what is finished. -/
theorem congr (hjournal : q'.journal = q.journal)
    (hahead : ∀ l, (q'.lane l).ahead = (q.lane l).ahead) (hcurrent : ∀ l, (q'.lane l).current = (q.lane l).current)
    (hfinished : q'.signals.finished = q.signals.finished) :
  q'.Orderly
  := by
  refine ⟨fun l => ⟨?_, ?_, ?_⟩, ?_, ?_, ?_⟩
  · rw [hjournal, hahead]
    exact (h.inLane l).ahead
  · rw [hjournal, hcurrent]
    exact (h.inLane l).current
  · rw [hjournal]
    exact (h.inLane l).returned
  · rw [submissions, hjournal]
    exact h.unused
  · rw [hjournal]
    exact h.once
  · rw [submissions, hjournal]
    intro k hk
    rw [Signals.isFinished_iff, hfinished, ← Signals.isFinished_iff]
    exact h.finished k hk

/-- A step keeps the order. -/
theorem step (hstep : Step q q') :
  q'.Orderly
  := by
  cases hstep with
  | submit l handle task free unused unfinished chosen => exact h.submit unused unfinished l task
  | take l handle task rest running waiting =>
    cases hcancelled : q.signals.isCancelled handle with
    | true =>
      rw [TaskStream.start_of_cancelled running waiting hcancelled]
      exact h.skip waiting
    | false =>
      rw [TaskStream.start_of_uncancelled running waiting hcancelled]
      exact h.start running waiting
  | drop handle task rest running waiting => exact h.skip waiting
  | resume l task =>
    exact h.congr rfl (fun l' => (q.alike_update l l' task).1) (fun l' => (q.alike_update l l' task).2.1) rfl
  | finish l handle task running =>
    rw [TaskStream.finish_of_running running]
    exact h.finish running
  | make => exact h.congr rfl (fun _ => rfl) (fun _ => rfl) rfl
  | cancel t => exact h.congr rfl (fun _ => rfl) (fun _ => rfl) (q.signals.finished_cancel t)
  | set multithreading => exact h.congr rfl (fun _ => rfl) (fun _ => rfl) rfl

/-- A task is either started or skipped. -/
theorem not_mem_starts {k : Token} (hk : k ∈ handles lanes [.skipped] q.journal) :
  k ∉ q.starts
  := by
  intro hstarted
  obtain ⟨e, he, ⟨hlane, hstage⟩, rfl⟩ := mem_handles.mp hk
  obtain ⟨e', he', ⟨hlane', hstage'⟩, hhandle⟩ := mem_handles.mp hstarted
  rw [List.mem_singleton] at hstage hstage'
  have heq := eq_of_nodup h.once he he' ⟨hlane, by simp [hstage]⟩ ⟨hlane', by simp [hstage']⟩ hhandle.symm
  rw [heq, hstage'] at hstage
  cases hstage

/-- The worker is idle if all that was submitted to it is over. -/
theorem idle_of_ended (hended : ∀ k ∈ handles [.worker] [.submitted] q.journal,
    k ∈ handles [.worker] [.returned, .skipped] q.journal) :
  (q.lane .worker).isIdle = true
  := by
  have hwiden {ss ss' : List Stage} (hstages : ss ⊆ ss') {k : Token} (hk : k ∈ handles [.worker] ss q.journal) :
      k ∈ handles lanes ss' q.journal := (handles_sublist (fun l _ => mem_lanes l) hstages).subset hk
  rw [TaskStream.isIdle_iff]
  constructor
  · cases hwaiting : (q.lane .worker).waiting with
    | nil => rfl
    | cons first rest =>
      obtain ⟨hsubmitted, hturned⟩ := h.not_mem_of_waiting hwaiting
      refine absurd ?_ hturned
      rcases mem_handles_pair.mp (hended first.1 hsubmitted) with hreturned | hskipped
      · exact hwiden (by simp) ((h.inLane .worker).returned first.1 hreturned)
      · exact hwiden (by simp) hskipped
  · cases hrunning : (q.lane .worker).running with
    | none => rfl
    | some first =>
      have hcurrent : underWayIn .worker q.journal = [first.1] := by
        rw [(h.inLane .worker).current, TaskStream.current, hrunning]
        rfl
      have hmem : first.1 ∈ underWayIn .worker q.journal := hcurrent ▸ List.mem_singleton_self _
      obtain ⟨hstarted, hrunning⟩ := List.mem_filter.mp hmem
      have hsubmitted := h.submitted (mem_handles_pair.mpr (.inl hstarted))
      rcases mem_handles_pair.mp (hended first.1 hsubmitted) with hreturned | hskipped
      · exact absurd hreturned (of_decide_eq_true hrunning)
      · exact absurd (hwiden (List.Subset.refl _) hstarted) (h.not_mem_starts (hwiden (List.Subset.refl _) hskipped))

end Orderly

/-- All tasks together wait in the order of their submission behind those whose turn came, and one lane at most has
tasks. -/
structure InOrder (q : Turns τ) : Prop where
  ahead : q.submissions =
    handles lanes [.started, .skipped] q.journal ++ ((q.lane .worker).ahead ++ (q.lane .caller).ahead)
  alone : ∃ l, (q.lane l).isIdle = true

theorem ahead_of_isIdle {stream : TaskStream τ} (h : stream.isIdle = true) :
  stream.ahead = []
  := by
  rw [TaskStream.ahead, (TaskStream.isIdle_iff.mp h).1, List.map_nil]

namespace InOrder

/-- Where one lane is idle, what waits is what waits in the other. -/
theorem ahead_append (h : ∃ l, l ≠ l' ∧ (q.lane l).isIdle = true) :
  (q.lane .worker).ahead ++ (q.lane .caller).ahead = (q.lane l').ahead
  := by
  obtain ⟨l, hl, hidle⟩ := h
  have hahead := ahead_of_isIdle hidle
  cases l <;> cases l'
  · exact absurd rfl hl
  · rw [hahead, List.nil_append]
  · rw [hahead, List.append_nil]
  · exact absurd rfl hl

/-- A change in one lane leaves the other one idle. -/
theorem idle_advance {result : TaskStream τ × Signals} (h : ∃ l', l' ≠ l ∧ (q.lane l').isIdle = true) :
  ∃ l', l' ≠ l ∧ ((q.advance l s handle result).lane l').isIdle = true
  := by
  obtain ⟨l', hl, hidle⟩ := h
  refine ⟨l', hl, ?_⟩
  rw [lane_advance_of_ne q hl]
  exact hidle

theorem ahead_advance {result : TaskStream τ × Signals} (h : ∃ l', l' ≠ l ∧ (q.lane l').isIdle = true) :
  ((q.advance l s handle result).lane .worker).ahead ++ ((q.advance l s handle result).lane .caller).ahead =
    result.1.ahead
  := by
  rw [ahead_append (idle_advance h), lane_advance_self]

/-- The other lane is idle if a lane has tasks. -/
theorem other_idle (h : q.InOrder) (hl : (q.lane l).isIdle ≠ true) :
  ∃ l', l' ≠ l ∧ (q.lane l').isIdle = true
  := by
  obtain ⟨l', hidle⟩ := h.alone
  exact ⟨l', fun heq => hl (heq ▸ hidle), hidle⟩

theorem submit (h : q.InOrder) (hother : ∃ l', l' ≠ l ∧ (q.lane l').isIdle = true) (handle : Token) (task : τ) :
  (q.advance l .submitted handle ((q.lane l).submit handle task, q.signals)).InOrder
  := by
  constructor
  · rw [ahead_advance hother, submissions, advance, handles_concat (mem_lanes l) List.mem_cons_self,
      handles_elsewhere (by decide), ← submissions, h.ahead, ahead_append hother, List.append_assoc]
    simp [TaskStream.ahead, TaskStream.submit]
  · obtain ⟨l', -, hidle⟩ := idle_advance hother
    exact ⟨l', hidle⟩

/-- The turn of the first task that waits comes. -/
theorem turn (h : q.InOrder) (hwaiting : (q.lane l).waiting = (handle, task) :: rest)
    (hs : s ∈ [Stage.started, .skipped]) {result : TaskStream τ × Signals} (hresult : result.1.waiting = rest) :
  (q.advance l s handle result).InOrder
  := by
  have hother := h.other_idle (l := l) fun hidle => by
    rw [(TaskStream.isIdle_iff.mp hidle).1] at hwaiting
    cases hwaiting
  have hs' : s ∉ [Stage.submitted] := by
    rw [List.mem_pair] at hs
    rcases hs with rfl | rfl <;> decide
  constructor
  · rw [ahead_advance hother, submissions, advance, handles_concat (mem_lanes l) hs, handles_elsewhere hs',
      ← submissions, h.ahead, ahead_append hother, TaskStream.ahead, TaskStream.ahead, hwaiting, hresult,
      List.append_assoc]
    rfl
  · obtain ⟨l', -, hidle⟩ := idle_advance hother
    exact ⟨l', hidle⟩

theorem finish (h : q.InOrder) (hrunning : (q.lane l).running = some (handle, task)) (signals : Signals) :
  (q.advance l .returned handle ({ q.lane l with running := none }, signals)).InOrder
  := by
  have hother := h.other_idle (l := l) fun hidle => by
    rw [(TaskStream.isIdle_iff.mp hidle).2] at hrunning
    cases hrunning
  constructor
  · rw [ahead_advance hother, submissions, advance, handles_elsewhere (by decide), handles_elsewhere (by decide),
      ← submissions, h.ahead, ahead_append hother]
    rfl
  · obtain ⟨l', -, hidle⟩ := idle_advance hother
    exact ⟨l', hidle⟩

/-- A step keeps all tasks in order unless it leaves one to the caller too soon. -/
theorem step (h : q.InOrder) (horderly : q.Orderly) (hstep : Step q q') (hpatient : IsPatient q'.journal) :
  q'.InOrder
  := by
  cases hstep with
  | submit l handle task free unused unfinished chosen =>
    refine h.submit ?_ handle task
    cases l with
    | worker => exact ⟨.caller, nofun, free⟩
    | caller => exact ⟨.worker, nofun, horderly.idle_of_ended (hpatient _ _ (List.prefix_refl _))⟩
  | take l handle task rest running waiting =>
    cases hcancelled : q.signals.isCancelled handle with
    | true =>
      rw [TaskStream.start_of_cancelled running waiting hcancelled]
      exact h.turn waiting (by decide) rfl
    | false =>
      rw [TaskStream.start_of_uncancelled running waiting hcancelled]
      exact h.turn waiting (by decide) rfl
  | drop handle task rest running waiting => exact h.turn waiting (by decide) rfl
  | resume l task =>
    obtain ⟨l', hidle⟩ := h.alone
    refine ⟨?_, l', (q.alike_update l l' task).2.2.trans hidle⟩
    rw [(q.alike_update l .worker task).1, (q.alike_update l .caller task).1]
    exact h.ahead
  | finish l handle task running =>
    rw [TaskStream.finish_of_running running]
    exact h.finish running _
  | make => exact ⟨h.ahead, h.alone⟩
  | cancel t => exact ⟨h.ahead, h.alone⟩
  | set multithreading => exact ⟨h.ahead, h.alone⟩

end InOrder

end Turns

end CallGraph
