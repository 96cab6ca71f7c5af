import CallGraph.Frontier.Replay
import CallGraph.Proofs.Frontier.Resting
import CallGraph.Proofs.Search.Recorded

/-!
# Recorded navigations

`Navigation.Accounts start n m` says of a navigation `n` that it is accounted for by a recorded one: `m` is `n` itself
with a record, every file that the scope has beyond `start` is the file of a definition in the record, and expansions
under way take in no other ones.  Everything that callers and workers do keeps navigations accounted for.
-/

namespace CallGraph

variable {σ : Type}

/-- An expansion that takes in nothing but what it is going to be given. -/
def Expansion.TakesIn (e : Expansion) : Prop :=
  match e.stage with
  | .searching search => search.TakesIn []
  | .settled => True

namespace Navigation

/-- A navigation whose provider is recorded, and what it returned so far. -/
def recorded (n : Navigation σ) (returned : List Definition) : Navigation (Recorded σ) :=
  ⟨n.workspace.recorded returned, n.frontier⟩

/-- A recorded navigation that accounts for how the scope grew since it was `start`. -/
inductive Accounts (start : SearchScope) : Navigation σ → Navigation (Recorded σ) → Prop where
  | mk {n : Navigation σ} {returned : List Definition} (grows : start.GrowsTo returned n.workspace.scope)
      (takesIn : n.frontier.expansions.All Expansion.TakesIn) : Accounts start n (n.recorded returned)

namespace Accounts

variable {start : SearchScope} {n : Navigation σ} {m : Navigation (Recorded σ)} {handle : Token} {e : Expansion}

theorem frontier (h : Accounts start n m) :
  m.frontier = n.frontier
  := by
  cases h
  rfl

theorem searches (h : Accounts start n m) :
  m.workspace.searches = n.workspace.searches
  := by
  cases h
  rfl

/-! ### Expansions -/

theorem finish (h : Accounts start n m) (handle : Token) :
  Accounts start (n.finish handle) (m.finish handle)
  := by
  obtain ⟨hgrows, htakesIn⟩ := h
  exact .mk hgrows htakesIn

theorem publish (h : Accounts start n m) (handle : Token) (column : Nat) (nodes : List Node) :
  Accounts start (n.publish handle column nodes) (m.publish handle column nodes)
  := by
  obtain ⟨hgrows, htakesIn⟩ := h
  exact .mk hgrows htakesIn

/-- The search of an expansion is run. -/
theorem run (h : Accounts start n m) {search : Search (List Node)} (hsearch : search.TakesIn []) :
  (m.workspace.run search).1 = (n.workspace.run search).1 ∧
    Accounts start { n with workspace := (n.workspace.run search).2 }
      { m with workspace := (m.workspace.run search).2 }
  := by
  obtain ⟨hgrows, htakesIn⟩ := h
  obtain ⟨returned', hrun, hgrows'⟩ := Workspace.exists_run_recorded hsearch (List.nil_subset _) hgrows
  dsimp only [recorded]
  rw [hrun]
  exact ⟨rfl, .mk hgrows' htakesIn⟩

theorem runExpansion (h : Accounts start n m) (handle : Token) (he : e.TakesIn) :
  Accounts start (n.runExpansion handle e) (m.runExpansion handle e)
  := by
  unfold Navigation.runExpansion
  rw [h.searches]
  split
  · exact h.finish handle
  · obtain ⟨column, stage⟩ := e
    cases stage with
    | settled => exact h.finish handle
    | searching search =>
      obtain ⟨hnodes, hrun⟩ := h.run he
      dsimp only
      rw [hnodes]
      exact (hrun.publish handle column _).finish handle

theorem stepExpansion (h : Accounts start n m) :
  Accounts start n.stepExpansion m.stepExpansion
  := by
  obtain ⟨hgrows, htakesIn⟩ := h
  unfold Navigation.stepExpansion
  dsimp only [recorded]
  cases hrunning : n.frontier.expansions.running with
  | none => exact .mk hgrows (htakesIn.start _)
  | some running =>
    obtain ⟨handle, column, stage⟩ := running
    cases stage with
    | settled => exact .mk hgrows (htakesIn.finish _)
    | searching search =>
      have hsearch : search.TakesIn [] := htakesIn.running _ hrunning
      cases search with
      | done nodes => exact .mk hgrows (htakesIn.resume trivial)
      | wait r next =>
        obtain ⟨hrest, returned', hadvance, hgrows'⟩ :=
          Workspace.exists_advance_recorded hsearch (List.nil_subset _) hgrows
        dsimp only
        rw [hadvance]
        exact .mk hgrows' (htakesIn.resume hrest)

theorem iterate {step : Navigation σ → Navigation σ} {step' : Navigation (Recorded σ) → Navigation (Recorded σ)}
    (hstep : ∀ {n m}, Accounts start n m → Accounts start (step n) (step' m)) (h : Accounts start n m) (k : Nat) :
  Accounts start (k.repeat step n) (k.repeat step' m)
  := by
  induction k with
  | zero => exact h
  | succ k ih => exact hstep ih

theorem workExpansions (h : Accounts start n m) :
  Accounts start n.workExpansions m.workExpansions
  := by
  unfold Navigation.workExpansions
  rw [h.frontier]
  apply iterate stepExpansion h

/-! ### Highlights -/

theorem load (h : Accounts start n m) (e : Element) :
  (m.load e).1 = (n.load e).1 ∧ Accounts start (n.load e).2 (m.load e).2
  := by
  obtain ⟨hgrows, htakesIn⟩ := h
  exact ⟨rfl, .mk hgrows htakesIn⟩

theorem emit (h : Accounts start n m) (event : SinkEvent) :
  Accounts start { n with frontier := n.frontier.emit event } { m with frontier := m.frontier.emit event }
  := by
  obtain ⟨hgrows, htakesIn⟩ := h
  exact .mk hgrows htakesIn

theorem runRender (h : Accounts start n m) (handle : Token) (e : Element) :
  Accounts start (n.runRender handle e) (m.runRender handle e)
  := by
  unfold Navigation.runRender
  rw [h.searches]
  split
  · exact h.finish handle
  · obtain ⟨hevent, hload⟩ := h.load e
    dsimp only
    rw [hevent, hload.searches]
    exact (hload.emit _).finish handle

theorem stepRender (h : Accounts start n m) :
  Accounts start n.stepRender m.stepRender
  := by
  obtain ⟨hgrows, htakesIn⟩ := h
  unfold Navigation.stepRender
  dsimp only [recorded]
  cases hrunning : n.frontier.renders.running with
  | none => exact .mk hgrows htakesIn
  | some running =>
    obtain ⟨handle, element, stage⟩ := running
    cases stage with
    | queued => exact .mk hgrows htakesIn
    | loaded event => exact .mk hgrows htakesIn
    | checked event => exact .mk hgrows htakesIn

/-! ### Callers -/

theorem setRoots (h : Accounts start n m) (nodes : List Node) :
  Accounts start (n.setRoots nodes) (m.setRoots nodes)
  := by
  obtain ⟨hgrows, htakesIn⟩ := h
  exact .mk hgrows htakesIn

theorem addRoots (h : Accounts start n m) (nodes : List Node) :
  Accounts start (n.addRoots nodes) (m.addRoots nodes)
  := by
  obtain ⟨hgrows, htakesIn⟩ := h
  exact .mk hgrows htakesIn

theorem removeRoots (h : Accounts start n m) (nodes : List Node) :
  Accounts start (n.removeRoots nodes) (m.removeRoots nodes)
  := by
  obtain ⟨hgrows, htakesIn⟩ := h
  exact .mk hgrows (n.frontier.expansions_removeRoots nodes _ ▸ htakesIn)

theorem refocus (h : Accounts start n m) (column : Nat) :
  (m.refocus column).1 = (n.refocus column).1 ∧ (m.refocus column).2.1 = (n.refocus column).2.1 ∧
    Accounts start (n.refocus column).2.2 (m.refocus column).2.2
  := by
  obtain ⟨hgrows, htakesIn⟩ := h
  have hexpansions (handle : Token) (c : Searches) :
      (n.frontier.refocus column handle c).2.1.expansions = n.frontier.expansions := by
    unfold Frontier.refocus
    dsimp only
    split
    · split <;> rfl
    · rfl
  exact ⟨rfl, rfl, .mk hgrows (hexpansions _ _ ▸ htakesIn)⟩

theorem getConfig (h : Accounts start n m) :
  m.workspace.getConfig.1 = n.workspace.getConfig.1 ∧
    Accounts start { n with workspace := n.workspace.getConfig.2 }
      { m with workspace := m.workspace.getConfig.2 }
  := by
  obtain ⟨hgrows, htakesIn⟩ := h
  exact ⟨rfl, .mk hgrows htakesIn⟩

theorem focus (h : Accounts start n m) (column : Nat) :
  Accounts start (n.focus column) (m.focus column)
  := by
  have hrefocus := h.refocus column
  unfold Navigation.focus
  generalize n.refocus column = r at hrefocus
  generalize m.refocus column = r' at hrefocus
  obtain ⟨handle, node, n'⟩ := r
  obtain ⟨handle', node', m'⟩ := r'
  dsimp only at hrefocus
  obtain ⟨rfl, rfl, h'⟩ := hrefocus
  cases node' with
  | none => exact h'
  | some node =>
    obtain ⟨hconfig, h''⟩ := h'.getConfig
    dsimp only
    rw [hconfig]
    split
    · obtain ⟨hgrows, htakesIn⟩ := h'
      exact .mk hgrows htakesIn
    · exact h''.runRender _ _

theorem setAutoHighlight (h : Accounts start n m) (enabled : Bool) :
  Accounts start (n.setAutoHighlight enabled) (m.setAutoHighlight enabled)
  := by
  obtain ⟨hgrows, htakesIn⟩ := h
  unfold Navigation.setAutoHighlight
  dsimp only [recorded]
  cases enabled with
  | false => exact .mk hgrows htakesIn
  | true =>
    cases hfocus : n.frontier.focus with
    | none => exact .mk hgrows htakesIn
    | some column =>
      apply focus
      exact .mk hgrows htakesIn

/-- A row is chosen as without the record, and its expansion is to take in only what it is going to be given. -/
theorem choose (h : Accounts start n m) (column row : Nat) :
  (∃ cause, n.choose column row = .error cause ∧ m.choose column row = .error cause) ∨
    ∃ node handle e n' m', n.choose column row = .ok (node, handle, e, n') ∧
      m.choose column row = .ok (node, handle, e, m') ∧ e.TakesIn ∧ Accounts start n' m'
  := by
  obtain ⟨hgrows, htakesIn⟩ := h
  rename_i returned
  have htoken : (n.workspace.recorded returned).freshToken =
      (n.workspace.freshToken.1, n.workspace.freshToken.2.recorded returned) := rfl
  unfold Navigation.choose
  dsimp only [recorded]
  rw [htoken]
  dsimp only [Workspace.recorded]
  cases hchosen : n.frontier.choose column row n.workspace.freshToken.1 n.workspace.freshToken.2.searches with
  | error cause => exact .inl ⟨cause, rfl, rfl⟩
  | ok chosen =>
    obtain ⟨node, f, c⟩ := chosen
    refine .inr ⟨node, _, _, _, _, rfl, rfl, Node.takesIn_next _ node, ?_⟩
    exact .mk hgrows (Frontier.expansions_of_choose hchosen ▸ htakesIn)

theorem submit (h : Accounts start n m) (handle : Token) (he : e.TakesIn) :
  Accounts start (n.submit handle e) (m.submit handle e)
  := by
  obtain ⟨hconfig, h'⟩ := h.getConfig
  unfold Navigation.submit
  dsimp only
  rw [hconfig]
  split
  · obtain ⟨hgrows, htakesIn⟩ := h
    exact .mk hgrows (htakesIn.submit handle he)
  · exact h'.runExpansion handle he

theorem selectWith (h : Accounts start n m) (strict : Bool) (column row : Nat) :
  (m.selectWith strict column row).1 = (n.selectWith strict column row).1 ∧
    Accounts start (n.selectWith strict column row).2 (m.selectWith strict column row).2
  := by
  unfold Navigation.selectWith
  obtain ⟨cause, hchoose, hchoose'⟩ | ⟨node, handle, e, n', m', hchoose, hchoose', he, h'⟩ := h.choose column row
  · rw [hchoose, hchoose']
    exact ⟨rfl, h⟩
  · rw [hchoose, hchoose']
    refine ⟨rfl, ?_⟩
    dsimp only
    split
    · exact (h'.focus column).runExpansion handle he
    · exact (h'.focus column).submit handle he

theorem note (h : Accounts start n m) (line : LogLine) :
  Accounts start { n with workspace := n.workspace.note line } { m with workspace := m.workspace.note line }
  := by
  obtain ⟨hgrows, htakesIn⟩ := h
  exact .mk hgrows htakesIn

/-! ### Bookmarks -/

theorem waitColumn (h : Accounts start n m) (column : Nat) :
  Accounts start (n.waitColumn column) (m.waitColumn column)
  := by
  cases column with
  | zero => exact h
  | succ left =>
    unfold Navigation.waitColumn
    rw [h.frontier]
    dsimp only
    split
    · rw [h.searches]
      split
      · exact h
      · exact h.workExpansions
    · exact h

theorem followRow (h : Accounts start n m) (column row : Nat) :
  (m.followRow column row).1 = (n.followRow column row).1 ∧
    Accounts start (n.followRow column row).2 (m.followRow column row).2
  := by
  have hselect := h.selectWith true column row
  unfold Navigation.followRow selectStrict
  generalize n.selectWith true column row = r at hselect
  generalize m.selectWith true column row = r' at hselect
  obtain ⟨result, n'⟩ := r
  obtain ⟨result', m'⟩ := r'
  dsimp only at hselect
  obtain ⟨rfl, h'⟩ := hselect
  cases result' with
  | ok node => exact ⟨rfl, h'⟩
  | error cause => exact ⟨rfl, h'.note _⟩

theorem follow (h : Accounts start n m) (column : Nat) (targets : List Element) :
  Accounts start (n.follow column targets).2 (m.follow column targets).2
  := by
  induction targets generalizing n m column with
  | nil => exact h
  | cons target targets ih =>
    have hwait := h.waitColumn column
    rw [Navigation.follow, Navigation.follow]
    generalize n.waitColumn column = n' at hwait
    generalize m.waitColumn column = m' at hwait
    dsimp only
    rw [hwait.frontier]
    cases n'.frontier.column? column with
    | none => exact hwait
    | some current =>
      dsimp only
      cases findMatch current.elements target with
      | none =>
        dsimp only
        split
        · exact hwait
        · exact (hwait.followRow column 0).2
      | some found =>
        obtain ⟨row, degree⟩ := found
        have hfollow {n : Navigation σ} {m : Navigation (Recorded σ)} (h : Accounts start n m) :
            Accounts start (InLine.followRest column row degree targets (n.followRow column row)).2
              (InLine.followRest column row degree targets (m.followRow column row)).2 := by
          have hrow := h.followRow column row
          generalize n.followRow column row = r at hrow
          generalize m.followRow column row = r' at hrow
          obtain ⟨selected, n'⟩ := r
          obtain ⟨selected', m'⟩ := r'
          dsimp only at hrow
          obtain ⟨rfl, h'⟩ := hrow
          cases selected' with
          | false => exact h'
          | true => exact ih h' (column + 1)
        apply hfollow
        cases degree.note? with
        | none => exact hwait
        | some note =>
          obtain ⟨hgrows, htakesIn⟩ := hwait
          exact .mk hgrows htakesIn

end Accounts

end Navigation

end CallGraph
