import CallGraph.Tasks

/-!
# Steps of task streams

What taking up the next task does, case by case, and what all tasks of a stream have in common.
-/

namespace CallGraph.TaskStream

variable {τ : Type} {s : TaskStream τ} {signals : Signals} {handle : Token} {task : τ}
  {rest : List (Token × τ)}

/-- A stream without waiting tasks starts none. -/
theorem start_of_nil (hwaiting : s.waiting = []) :
  s.start signals = (s, signals)
  := by
  rw [start, hwaiting]
  cases s.running <;> rfl

/-- A cancelled task is skipped. -/
theorem start_of_cancelled (hrunning : s.running = none) (hwaiting : s.waiting = (handle, task) :: rest)
    (hcancelled : signals.isCancelled handle = true) :
  s.start signals = ({ s with waiting := rest }, signals.finish handle)
  := by
  simp only [start, hrunning, hwaiting, hcancelled, if_true]

/-- A task that was not cancelled is started. -/
theorem start_of_uncancelled (hrunning : s.running = none)
    (hwaiting : s.waiting = (handle, task) :: rest) (hcancelled : signals.isCancelled handle = false) :
  s.start signals = ({ s with waiting := rest, running := some (handle, task) }, signals)
  := by
  simp only [start, hrunning, hwaiting, hcancelled, Bool.false_eq_true, if_false]

/-- The task that runs is replaced by what is left of it. -/
theorem running_resume (hrunning : s.running = some (handle, task)) (task' : τ) :
  (s.resume task').running = some (handle, task')
  := by
  rw [resume, hrunning]
  rfl

/-- What is left of a task may itself be replaced. -/
theorem resume_resume (s : TaskStream τ) (task task' : τ) :
  (s.resume task).resume task' = s.resume task'
  := by
  rw [resume, resume, resume]
  cases s.running <;> rfl

/-- A task that is replaced by itself. -/
theorem resume_running (hrunning : s.running = some (handle, task)) :
  s.resume task = s
  := by
  cases s
  cases hrunning
  rfl

/-- The task that runs ends. -/
theorem finish_of_running (hrunning : s.running = some (handle, task)) :
  s.finish signals = ({ s with running := none }, signals.finish handle)
  := by
  simp only [finish, hrunning]

/-- Every task has a property, whether it waits or runs. -/
structure All (P : τ → Prop) (s : TaskStream τ) : Prop where
  waiting : ∀ x ∈ s.waiting, P x.2
  running : ∀ x ∈ s.running, P x.2

namespace All

variable {P : τ → Prop}

/-- A stream with nothing to do has no tasks. -/
theorem of_idle (hwaiting : s.waiting = []) (hrunning : s.running = none) :
  s.All P
  where
  waiting x hx := by
    rw [hwaiting] at hx
    cases hx
  running x hx := by
    rw [hrunning] at hx
    cases hx

theorem submit (h : s.All P) (handle : Token) (htask : P task) :
  (s.submit handle task).All P
  where
  waiting x hx := by
    rcases List.mem_append.mp hx with hx | hx
    · exact h.waiting x hx
    · cases List.mem_singleton.mp hx
      exact htask
  running := h.running

theorem start (h : s.All P) (signals : Signals) :
  (s.start signals).1.All P
  := by
  cases hrunning : s.running with
  | some running =>
    rw [TaskStream.start, hrunning]
    exact h
  | none =>
    cases hwaiting : s.waiting with
    | nil =>
      rw [start_of_nil hwaiting]
      exact h
    | cons first rest =>
      have hall : ∀ x ∈ first :: rest, P x.2 := hwaiting ▸ h.waiting
      rw [List.forall_mem_cons] at hall
      cases hcancelled : signals.isCancelled first.1 with
      | true =>
        rw [start_of_cancelled hrunning hwaiting hcancelled]
        exact ⟨hall.2, h.running⟩
      | false =>
        rw [start_of_uncancelled hrunning hwaiting hcancelled]
        refine ⟨hall.2, ?_⟩
        rintro x ⟨⟩
        exact hall.1

theorem resume (h : s.All P) (htask : P task) :
  (s.resume task).All P
  where
  waiting := h.waiting
  running x hx := by
    obtain ⟨running, -, rfl⟩ := Option.map_eq_some_iff.mp hx
    exact htask

theorem finish (h : s.All P) (signals : Signals) :
  (s.finish signals).1.All P
  := by
  unfold TaskStream.finish
  split
  · exact ⟨h.waiting, nofun⟩
  · exact h

end All

end CallGraph.TaskStream
