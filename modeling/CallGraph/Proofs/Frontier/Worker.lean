import CallGraph.Frontier.Navigation
import CallGraph.Proofs.Search.Truthful
import CallGraph.Proofs.Tasks

/-!
# Steps of the workers

What one step of the expansion worker is, case by case: nothing, an expansion skipped or taken up, a list published
or thrown away, an expansion ended; and what one of the highlight worker is: nothing, a highlight skipped or taken up,
its text loaded, a last look at its handle, its delivery.

Putting a column into focus and every step of the highlight worker leave the slots and the expansions alone,
and touch no handles but those of highlights.
-/

namespace CallGraph

variable {σ : Type}

namespace Navigation

variable {n : Navigation σ} {handle : Token}

section Expansions

variable {e : Expansion} {rest : List (Token × Expansion)}

/-- The worker has nothing to do. -/
theorem stepExpansion_of_nil (hrunning : n.frontier.expansions.running = none)
    (hwaiting : n.frontier.expansions.waiting = []) :
  n.stepExpansion = n
  := by
  simp only [stepExpansion, hrunning, TaskStream.start_of_nil hwaiting]
  rfl

/-- The worker skips an expansion that was cancelled. -/
theorem stepExpansion_of_cancelled (hrunning : n.frontier.expansions.running = none)
    (hwaiting : n.frontier.expansions.waiting = (handle, e) :: rest)
    (hcancelled : n.workspace.searches.isCancelled handle = true) :
  n.stepExpansion =
    { n.finish handle with
      frontier := { n.frontier with expansions := { n.frontier.expansions with waiting := rest } } }
  := by
  simp only [stepExpansion, hrunning, TaskStream.start_of_cancelled hrunning hwaiting hcancelled]
  rfl

/-- The worker takes up an expansion. -/
theorem stepExpansion_of_uncancelled (hrunning : n.frontier.expansions.running = none)
    (hwaiting : n.frontier.expansions.waiting = (handle, e) :: rest)
    (hcancelled : n.workspace.searches.isCancelled handle = false) :
  n.stepExpansion =
    { n with
      frontier := { n.frontier with
        expansions := { n.frontier.expansions with waiting := rest, running := some (handle, e) } } }
  := by
  simp only [stepExpansion, hrunning, TaskStream.start_of_uncancelled hrunning hwaiting hcancelled]
  rfl

/-- The worker publishes what its search found, or throws it away. -/
theorem stepExpansion_of_done {column : Nat} {nodes : List Node}
    (hrunning : n.frontier.expansions.running = some (handle, ⟨column, .searching (.done nodes)⟩)) :
  n.stepExpansion =
    { n with
      frontier := { n.frontier.publish n.workspace.searches handle column nodes with
        expansions := n.frontier.expansions.resume ⟨column, .settled⟩ } }
  := by
  simp only [stepExpansion, hrunning]
  rfl

/-- The worker ends an expansion. -/
theorem stepExpansion_of_settled {column : Nat}
    (hrunning : n.frontier.expansions.running = some (handle, ⟨column, .settled⟩)) :
  n.stepExpansion =
    { n.finish handle with
      frontier := { n.frontier with expansions := { n.frontier.expansions with running := none } } }
  := by
  simp only [stepExpansion, hrunning, TaskStream.finish_of_running hrunning]
  rfl

end Expansions

section Renders

variable {h : Highlight} {e : Element} {event : SinkEvent} {rest : List (Token × Highlight)}

/-- The highlight worker has nothing to do. -/
theorem stepRender_of_nil (hrunning : n.frontier.renders.running = none) (hwaiting : n.frontier.renders.waiting = []) :
  n.stepRender = n
  := by
  simp only [stepRender, hrunning, TaskStream.start_of_nil hwaiting]
  rfl

/-- The highlight worker skips a highlight that was cancelled. -/
theorem stepRender_of_cancelled (hrunning : n.frontier.renders.running = none)
    (hwaiting : n.frontier.renders.waiting = (handle, h) :: rest)
    (hcancelled : n.workspace.searches.isCancelled handle = true) :
  n.stepRender =
    { n.finish handle with
      frontier := { n.frontier with renders := { n.frontier.renders with waiting := rest } } }
  := by
  simp only [stepRender, hrunning, TaskStream.start_of_cancelled hrunning hwaiting hcancelled]
  rfl

/-- The highlight worker takes up a highlight. -/
theorem stepRender_of_uncancelled (hrunning : n.frontier.renders.running = none)
    (hwaiting : n.frontier.renders.waiting = (handle, h) :: rest)
    (hcancelled : n.workspace.searches.isCancelled handle = false) :
  n.stepRender =
    { n with
      frontier := { n.frontier with
        renders := { n.frontier.renders with waiting := rest, running := some (handle, h) } } }
  := by
  simp only [stepRender, hrunning, TaskStream.start_of_uncancelled hrunning hwaiting hcancelled]
  rfl

/-- The highlight worker loads what the sink is to be told. -/
theorem stepRender_of_queued (hrunning : n.frontier.renders.running = some (handle, ⟨e, .queued⟩)) :
  n.stepRender =
    { (n.load e).2 with
      frontier := { (n.load e).2.frontier with renders := n.frontier.renders.resume ⟨e, .loaded (n.load e).1⟩ } }
  := by
  simp only [stepRender, hrunning]
  rfl

/-- The highlight worker looks at the handle for the last time. -/
theorem stepRender_of_loaded (hrunning : n.frontier.renders.running = some (handle, ⟨e, .loaded event⟩)) :
  n.stepRender =
    { n with
      frontier := { n.frontier with
        renders := n.frontier.renders.resume
          ⟨e, .checked (Highlighter.check (n.workspace.searches.isCancelled handle) event)⟩ } }
  := by
  simp only [stepRender, hrunning]

/-- The highlight worker tells the sink. -/
theorem stepRender_of_checked (hrunning : n.frontier.renders.running = some (handle, ⟨e, .checked event⟩)) :
  n.stepRender =
    { n.finish handle with
      frontier := { n.frontier.emit event with renders := { n.frontier.renders with running := none } } }
  := by
  simp only [stepRender, hrunning, Frontier.emit, TaskStream.finish_of_running hrunning]
  rfl

end Renders

end Navigation

/-! ### Showing selected rows -/

/-- The handles of the highlights that were not superseded or are not finished. -/
def Frontier.shown (f : Frontier) : List Token :=
  f.highlights ++ (f.renders.waiting ++ f.renders.running.toList).map Prod.fst

/-- Showing a column changes neither slots nor expansions, and no handles but those of highlights. -/
structure Shows (n n' : Navigation σ) : Prop where
  provider : n'.workspace.provider = n.workspace.provider
  fits : ∀ A, n.workspace.Fits A → n'.workspace.Fits A
  config : n'.workspace.getConfig.1 = n.workspace.getConfig.1
  slots : n'.frontier.slots = n.frontier.slots
  expansions : n'.frontier.expansions = n.frontier.expansions
  touches : (∀ t ∈ n.frontier.shown, n.workspace.searches.Issued t) →
    n.workspace.searches.Touches n.frontier.shown n'.frontier.shown n'.workspace.searches

namespace Shows

variable {n n' n'' : Navigation σ}

/-- One after the other. -/
theorem trans (h : Shows n n') (h' : Shows n' n'') :
  Shows n n''
  where
  provider := h'.provider.trans h.provider
  fits A hA := h'.fits A (h.fits A hA)
  config := h'.config.trans h.config
  slots := h'.slots.trans h.slots
  expansions := h'.expansions.trans h.expansions
  touches hissued := (h.touches hissued).trans (h'.touches ((h.touches hissued).issued hissued))

/-- Changes that leave the searches alone and forget handles at most. -/
theorem ofForget (hprovider : n'.workspace.provider = n.workspace.provider)
    (hfits : ∀ A, n.workspace.Fits A → n'.workspace.Fits A)
    (hconfig : n'.workspace.getConfig.1 = n.workspace.getConfig.1)
    (hslots : n'.frontier.slots = n.frontier.slots)
    (hexpansions : n'.frontier.expansions = n.frontier.expansions)
    (hsearches : n'.workspace.searches = n.workspace.searches)
    (hshown : ∀ t ∈ n'.frontier.shown, t ∈ n.frontier.shown) :
  Shows n n'
  where
  provider := hprovider
  fits := hfits
  config := hconfig
  slots := hslots
  expansions := hexpansions
  touches _ := hsearches ▸ .forget hshown

/-- A highlight that ends. -/
theorem finish {handle : Token} (hmem : handle ∈ n.frontier.shown) :
  Shows n (n.finish handle)
  where
  provider := rfl
  fits _ h := h.withSearches _
  config := rfl
  slots := rfl
  expansions := rfl
  touches hissued := .finish hmem (hissued handle hmem)

/-- A text that is read. -/
theorem load (n : Navigation σ) (e : Element) :
  Shows n (n.load e).2
  :=
  .ofForget rfl (fun _ h => ⟨h.steady, h.files, h.searchPath, h.mode⟩) rfl rfl rfl rfl fun _ => id

/-- A sink that is told something. -/
theorem emit (n : Navigation σ) (event : SinkEvent) :
  Shows n { n with frontier := n.frontier.emit event }
  :=
  .ofForget rfl (fun _ h => h) rfl rfl rfl rfl fun _ => id

/-- A highlight that is run to its end. -/
theorem runRender {handle : Token} (hmem : handle ∈ n.frontier.shown) (e : Element) :
  Shows n (n.runRender handle e)
  := by
  rw [Navigation.runRender]
  split
  case isTrue => exact .finish hmem
  case isFalse => apply ((load n e).trans (emit _ _)).trans (.finish hmem)

/-- A column that is put into focus; the handle of its highlight, if it is to have one, is a new one. -/
theorem refocus (n : Navigation σ) (column : Nat) :
  Shows n (n.refocus column).2.2 ∧
    ((n.refocus column).2.1.isSome → (n.refocus column).1 ∈ (n.refocus column).2.2.frontier.shown)
  := by
  have hfresh : n.workspace.searches.Touches n.frontier.shown
      (n.workspace.freshToken.1 :: n.frontier.shown) n.workspace.freshToken.2.searches := .fresh _ _
  have hcancel (hissued : ∀ t ∈ n.frontier.shown, n.workspace.searches.Issued t) :
      n.workspace.searches.Touches n.frontier.shown (n.workspace.freshToken.1 :: n.frontier.shown)
        (n.frontier.highlights.foldl Searches.cancel n.workspace.freshToken.2.searches) := by
    apply hfresh.trans
    apply Searches.Touches.foldl_cancel
    · exact fun t ht => List.mem_cons_of_mem _ (List.mem_append_left _ ht)
    · apply hfresh.issued hissued
  simp only [Navigation.refocus, Frontier.refocus]
  split
  case isTrue =>
    split
    case h_1 =>
      refine ⟨⟨rfl, fun _ h => h.withSearches _, rfl, rfl, rfl,
        fun hissued => (hcancel hissued).trans (.forget ?_)⟩, fun _ => ?_⟩
      · intro t ht
        rcases List.mem_cons.mp ht with rfl | ht
        · apply List.mem_cons_self
        · apply List.mem_cons_of_mem _ (List.mem_append_right _ ht)
      · apply List.mem_cons_self
    case h_2 =>
      refine ⟨⟨rfl, fun _ h => h.withSearches _, rfl, rfl, rfl,
        fun hissued => (hcancel hissued).trans (.forget ?_)⟩, nofun⟩
      exact fun t ht => List.mem_cons_of_mem _ (List.mem_append_right _ ht)
  case isFalse =>
    refine ⟨⟨rfl, fun _ h => h.withSearches _, rfl, rfl, rfl, fun _ => hfresh.trans (.forget ?_)⟩, nofun⟩
    exact fun t ht => List.mem_cons_of_mem _ ht

/-- A highlight that is handed to the worker under a handle given out for it. -/
theorem submitRender {handle : Token} (hmem : handle ∈ n.frontier.shown) (h : Highlight) :
  Shows n { n with frontier := { n.frontier with renders := n.frontier.renders.submit handle h } }
  := by
  refine .ofForget rfl (fun _ h => h) rfl rfl rfl rfl fun t ht => ?_
  rcases List.mem_append.mp ht with ht | ht
  · apply List.mem_append_left _ ht
  · simp only [TaskStream.submit, List.map_append, List.mem_append, List.map_cons, List.map_nil,
      List.mem_singleton] at ht
    rcases ht with (ht | rfl) | ht
    · apply List.mem_append_right
      rw [List.map_append]
      apply List.mem_append_left _ ht
    · apply hmem
    · apply List.mem_append_right
      rw [List.map_append]
      apply List.mem_append_right _ ht

/-- The configuration is read. -/
theorem configure (n : Navigation σ) :
  Shows n { n with workspace := n.workspace.getConfig.2 }
  :=
  .ofForget rfl (fun _ h => h.getConfig) (Workspace.getConfig_getConfig _) rfl rfl rfl fun _ => id

/-- A column that is put into focus and shown. -/
theorem focus (n : Navigation σ) (column : Nat) :
  Shows n (n.focus column)
  := by
  obtain ⟨hrefocus, hmem⟩ := refocus n column
  rw [Navigation.focus]
  generalize n.refocus column = r at *
  obtain ⟨handle, node, n'⟩ := r
  cases node with
  | none => apply hrefocus
  | some node =>
      apply (hrefocus.trans (.configure n')).trans
      dsimp only
      generalize n'.workspace.getConfig = r
      obtain ⟨config, w⟩ := r
      have hmem : handle ∈ (⟨w, n'.frontier⟩ : Navigation σ).frontier.shown := hmem rfl
      dsimp only
      split
      case isTrue => exact submitRender hmem _
      case isFalse => apply runRender hmem node.element

/-- The worker takes up the next highlight, or skips it. -/
theorem startRender (n : Navigation σ) (hrunning : n.frontier.renders.running = none) :
  Shows n n.stepRender
  := by
  simp only [Navigation.stepRender, hrunning]
  cases hwaiting : n.frontier.renders.waiting with
  | nil =>
      rw [TaskStream.start_of_nil hwaiting]
      exact .ofForget rfl (fun _ h => h) rfl rfl rfl rfl fun _ => id
  | cons first rest =>
      obtain ⟨handle, highlight⟩ := first
      have hfirst : handle ∈ n.frontier.shown := by
        simp [Frontier.shown, hwaiting]
      cases hcancelled : n.workspace.searches.signals.isCancelled handle with
      | true =>
          rw [TaskStream.start_of_cancelled hrunning hwaiting hcancelled]
          apply (Shows.finish hfirst).trans
          refine .ofForget rfl (fun _ h => h) rfl rfl rfl rfl fun t ht => ?_
          simp only [Frontier.shown, Navigation.finish, hwaiting, List.mem_append, List.map_append,
            List.map_cons, List.mem_cons] at ht ⊢
          tauto
      | false =>
          rw [TaskStream.start_of_uncancelled hrunning hwaiting hcancelled]
          refine .ofForget rfl (fun _ h => h) rfl rfl rfl rfl fun t ht => ?_
          simp only [Frontier.shown, hwaiting, hrunning, List.mem_append, List.map_append, List.map_cons,
            List.mem_cons, Option.toList_some, Option.toList_none, List.map_nil, List.not_mem_nil] at ht ⊢
          tauto

/-- A highlight that goes on. -/
theorem resumeRender (n : Navigation σ) {handle : Token} {h : Highlight}
    (hrunning : n.frontier.renders.running = some (handle, h)) (h' : Highlight) :
  Shows n { n with frontier := { n.frontier with renders := n.frontier.renders.resume h' } }
  := by
  refine .ofForget rfl (fun _ h => h) rfl rfl rfl rfl fun t ht => ?_
  simpa [Frontier.shown, TaskStream.resume, hrunning] using ht

/-- One step of the highlight worker. -/
theorem stepRender (n : Navigation σ) :
  Shows n n.stepRender
  := by
  cases hrunning : n.frontier.renders.running with
  | none => apply startRender n hrunning
  | some running =>
      obtain ⟨handle, element, stage⟩ := running
      have hmem : handle ∈ n.frontier.shown := by
        simp [Frontier.shown, hrunning]
      simp only [Navigation.stepRender, hrunning]
      cases stage with
      | queued =>
          have hload : (n.load element).2.frontier.renders.running = some (handle, ⟨element, .queued⟩) :=
            hrunning
          apply (load n element).trans (resumeRender _ hload _)
      | loaded event => apply resumeRender n hrunning _
      | checked event =>
          have hemit : (n.frontier.emit event).renders.running =
              some (handle, ⟨element, .checked event⟩) := hrunning
          dsimp only
          rw [TaskStream.finish_of_running hemit]
          apply ((emit n event).trans (Shows.finish hmem)).trans
          refine .ofForget rfl (fun _ h => h) rfl rfl rfl rfl fun t ht => ?_
          simp only [Frontier.shown, List.map_append, List.mem_append, Option.toList_none, List.map_nil,
            List.not_mem_nil, or_false] at ht ⊢
          apply ht.imp id .inl

end Shows

end CallGraph
