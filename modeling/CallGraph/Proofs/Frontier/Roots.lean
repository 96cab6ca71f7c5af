import CallGraph.Frontier.Replay
import CallGraph.Proofs.Frontier.Slots
import CallGraph.Proofs.Search.Roots

/-!
# What navigating leaves alone

Whatever is selected, expanded, shown or followed, the rows of column 0 stay as they are, and so do the provider and
the files.  No number of a node is taken back.
-/

namespace CallGraph

variable {σ α : Type}

namespace Workspace

/-- What a workspace goes on to be while it is only searched in. -/
structure GoesOn (w w' : Workspace σ) : Prop where
  provider : w'.provider = w.provider
  answers : ∀ answers, w.Answers answers → w'.Answers answers
  files : w'.files = w.files
  nextNode : w.nextNode ≤ w'.nextNode

namespace GoesOn

variable {w w' w'' : Workspace σ}

theorem refl (w : Workspace σ) :
  w.GoesOn w
  :=
  ⟨rfl, fun _ => id, rfl, Nat.le_refl _⟩

theorem trans (h : w.GoesOn w') (h' : w'.GoesOn w'') :
  w.GoesOn w''
  :=
  ⟨h'.provider.trans h.provider, fun answers hw => h'.answers answers (h.answers answers hw),
    h'.files.trans h.files, Nat.le_trans h.nextNode h'.nextNode⟩

theorem perform (w : Workspace σ) (r : Request) :
  w.GoesOn (w.perform r).2
  := by
  refine ⟨w.perform_provider r, fun _ hw => hw.perform r, w.files_perform r, ?_⟩
  cases r with
  | freshNode => exact Nat.le_succ _
  | _ => exact Nat.le_refl _

theorem run (w : Workspace σ) (s : Search α) :
  w.GoesOn (w.run s).2
  := by
  induction s generalizing w with
  | done a => exact .refl w
  | wait r next ih => exact (perform w r).trans (ih _ _)

theorem advance (w : Workspace σ) (s : Search α) :
  w.GoesOn (w.advance s).2
  := by
  induction s generalizing w with
  | done a => exact .refl w
  | wait r next ih =>
    rw [Workspace.advance]
    split
    · exact (perform w r).trans (ih _ _)
    · exact .refl w

end GoesOn

end Workspace

/-- The rows of column 0. -/
def Frontier.roots (f : Frontier) : List Node :=
  (f.slots.head?.map (·.column.nodes)).getD []

theorem Frontier.roots_removeRoots (f : Frontier) (nodes : List Node) (c : Searches) :
  (f.removeRoots nodes c).1.roots = f.roots.filter fun node => !isAmong nodes node
  := by
  unfold removeRoots roots
  cases hslots : f.slots with
  | nil =>
    dsimp only
    rw [hslots]
    rfl
  | cons root rest =>
    dsimp only
    split
    · rfl
    · split <;> rfl

theorem Frontier.roots_addRoots {f : Frontier} (h : f.slots ≠ []) (nodes : List Node) :
  (f.addRoots nodes).roots = f.roots ++ nodes
  := by
  unfold addRoots roots
  cases hslots : f.slots with
  | nil => contradiction
  | cons root rest => rfl

namespace Navigation

/-- What a navigation goes on to be while its roots are not replaced. -/
structure GoesOn (n n' : Navigation σ) : Prop where
  workspace : n.workspace.GoesOn n'.workspace
  roots : n'.frontier.roots = n.frontier.roots

namespace GoesOn

variable {n n' n'' : Navigation σ}

theorem refl (n : Navigation σ) :
  n.GoesOn n
  :=
  ⟨.refl _, rfl⟩

theorem trans (h : n.GoesOn n') (h' : n'.GoesOn n'') :
  n.GoesOn n''
  :=
  ⟨h.workspace.trans h'.workspace, h'.roots.trans h.roots⟩

/-- Changes of what counts for neither the rows nor the nodes. -/
theorem ofWorkspace (hprovider : n'.workspace.provider = n.workspace.provider)
    (hanalysis : n'.workspace.analysis = n.workspace.analysis) (hfiles : n'.workspace.files = n.workspace.files)
    (hnextNode : n'.workspace.nextNode = n.workspace.nextNode) (hslots : n'.frontier.slots = n.frontier.slots) :
  n.GoesOn n'
  := by
  refine ⟨⟨hprovider, fun answers hw => ?_, hfiles, Nat.le_of_eq hnextNode.symm⟩, ?_⟩
  · unfold Workspace.Answers at hw ⊢
    rw [hprovider, hanalysis]
    exact hw
  rw [Frontier.roots, hslots, Frontier.roots]

/-! ### Expansions -/

theorem finish (n : Navigation σ) (handle : Token) :
  n.GoesOn (n.finish handle)
  :=
  .ofWorkspace rfl rfl rfl rfl rfl

/-- An expansion fills a column right of another one. -/
theorem publish (n : Navigation σ) (handle : Token) (column : Nat) (nodes : List Node) :
  n.GoesOn (n.publish handle column nodes)
  := by
  refine ⟨.refl _, ?_⟩
  rw [Navigation.publish, Frontier.publish, Frontier.roots, Frontier.roots]
  dsimp only
  split
  · rfl
  · cases n.frontier.slots with
    | nil => rfl
    | cons root rest => rfl

theorem runExpansion (n : Navigation σ) (handle : Token) (e : Expansion) :
  n.GoesOn (n.runExpansion handle e)
  := by
  unfold Navigation.runExpansion
  split
  · exact .finish n handle
  · split
    · rename_i search _
      have hrun : n.GoesOn { n with workspace := (n.workspace.run search).2 } := ⟨.run _ _, rfl⟩
      exact (hrun.trans (.publish _ handle _ _)).trans (.finish _ handle)
    · exact .finish n handle

theorem stepExpansion (n : Navigation σ) :
  n.GoesOn n.stepExpansion
  := by
  unfold Navigation.stepExpansion
  split
  · exact .ofWorkspace rfl rfl rfl rfl rfl
  · rename_i handle e _
    split
    · exact (publish n handle _ _).trans (.ofWorkspace rfl rfl rfl rfl rfl)
    · rename_i search _ _
      exact ⟨.advance _ search, rfl⟩
    · exact .ofWorkspace rfl rfl rfl rfl rfl

theorem iterate {step : Navigation σ → Navigation σ} (h : ∀ n : Navigation σ, n.GoesOn (step n)) (k : Nat)
    (n : Navigation σ) :
  n.GoesOn (k.repeat step n)
  := by
  induction k with
  | zero => exact .refl n
  | succ k ih => exact ih.trans (h _)

theorem workExpansions (n : Navigation σ) :
  n.GoesOn n.workExpansions
  :=
  iterate stepExpansion _ n

/-! ### Highlights -/

theorem load (n : Navigation σ) (e : Element) :
  n.GoesOn (n.load e).2
  :=
  .ofWorkspace rfl rfl rfl rfl rfl

theorem runRender (n : Navigation σ) (handle : Token) (e : Element) :
  n.GoesOn (n.runRender handle e)
  := by
  unfold Navigation.runRender
  split
  · exact .finish n handle
  · exact (load n e).trans (.ofWorkspace rfl rfl rfl rfl rfl)

/-! ### Callers -/

theorem refocus (n : Navigation σ) (column : Nat) :
  n.GoesOn (n.refocus column).2.2
  := by
  have hslots : (n.refocus column).2.2.frontier.slots = n.frontier.slots := by
    simp only [Navigation.refocus, Frontier.refocus]
    split
    · split
      · rfl
      · rfl
    · rfl
  exact .ofWorkspace rfl rfl rfl rfl hslots

theorem focus (n : Navigation σ) (column : Nat) :
  n.GoesOn (n.focus column)
  := by
  have hrefocus := refocus n column
  unfold Navigation.focus
  generalize n.refocus column = r at hrefocus
  obtain ⟨handle, node, n'⟩ := r
  cases node with
  | none => exact hrefocus
  | some node =>
    apply hrefocus.trans
    have hconfig : n'.GoesOn { n' with workspace := n'.workspace.getConfig.2 } := .ofWorkspace rfl rfl rfl rfl rfl
    dsimp only
    split
    · exact hconfig.trans (.ofWorkspace rfl rfl rfl rfl rfl)
    · exact hconfig.trans (.runRender _ _ _)

/-- A row that is selected stays where it is. -/
theorem choose {node : Node} {handle : Token} {e : Expansion} {column row : Nat}
    (h : n.choose column row = .ok (node, handle, e, n')) :
  n.GoesOn n'
  := by
  unfold Navigation.choose Frontier.choose at h
  dsimp only at h
  cases hslot : n.frontier.slots[column]? with
  | none =>
    rw [hslot] at h
    cases h
  | some slot =>
    rw [hslot] at h
    dsimp only at h
    cases hrow : slot.column.nodes[row]? with
    | none =>
      rw [hrow] at h
      cases h
    | some chosen =>
      rw [hrow] at h
      cases h
      refine ⟨⟨rfl, fun _ => id, rfl, Nat.le_refl _⟩, ?_⟩
      rw [Frontier.roots, Frontier.roots]
      dsimp only
      rw [cancelFrom_take]
      cases hslots : n.frontier.slots with
      | nil =>
        rw [hslots] at hslot
        cases hslot
      | cons root rest =>
        rw [hslots] at hslot
        cases column with
        | zero =>
          cases hslot
          rfl
        | succ column => rfl

theorem submit (n : Navigation σ) (handle : Token) (e : Expansion) :
  n.GoesOn (n.submit handle e)
  := by
  have hconfig : n.GoesOn { n with workspace := n.workspace.getConfig.2 } := .ofWorkspace rfl rfl rfl rfl rfl
  unfold Navigation.submit
  dsimp only
  split
  · exact hconfig.trans (.ofWorkspace rfl rfl rfl rfl rfl)
  · exact hconfig.trans (.runExpansion _ handle e)

theorem selectWith (strict : Bool) (n : Navigation σ) (column row : Nat) :
  n.GoesOn (n.selectWith strict column row).2
  := by
  unfold Navigation.selectWith
  cases hchoose : n.choose column row with
  | error e => exact .refl n
  | ok chosen =>
    obtain ⟨node, handle, e, n'⟩ := chosen
    apply (choose hchoose).trans
    apply (focus n' column).trans
    dsimp only
    split
    · exact .runExpansion _ handle e
    · exact .submit _ handle e

/-! ### Bookmarks -/

theorem waitColumn (n : Navigation σ) (column : Nat) :
  n.GoesOn (n.waitColumn column)
  := by
  cases column with
  | zero => exact .refl n
  | succ left =>
    unfold Navigation.waitColumn
    dsimp only
    split
    · split
      · exact .refl n
      · exact .workExpansions n
    · exact .refl n

theorem followRow (n : Navigation σ) (column row : Nat) :
  n.GoesOn (n.followRow column row).2
  := by
  have hselect := selectWith true n column row
  unfold Navigation.followRow selectStrict
  generalize n.selectWith true column row = r at hselect
  obtain ⟨result, n'⟩ := r
  cases result with
  | ok node => exact hselect
  | error e => exact hselect.trans (.ofWorkspace rfl rfl rfl rfl rfl)

theorem follow (n : Navigation σ) (column : Nat) (targets : List Element) :
  n.GoesOn (n.follow column targets).2
  := by
  induction targets generalizing n column with
  | nil => exact .refl n
  | cons target targets ih =>
    rw [Navigation.follow]
    apply (waitColumn n column).trans
    dsimp only
    split
    · exact .refl _
    · rename_i current _
      split
      · rename_i row degree _
        cases degree.note? <;>
        · dsimp only
          split
          case h_1 m heq =>
            have hrow := congrArg Prod.snd heq ▸ followRow _ column row
            refine trans ?_ hrow
            exact .ofWorkspace rfl rfl rfl rfl rfl
          case h_2 m heq =>
            have hrow := congrArg Prod.snd heq ▸ followRow _ column row
            refine trans ?_ (hrow.trans (ih m (column + 1)))
            exact .ofWorkspace rfl rfl rfl rfl rfl
      · split
        · exact .refl _
        · exact .followRow _ column 0

theorem openBookmark (n : Navigation σ) (bookmark : Bookmark) :
  n.GoesOn (n.openBookmark bookmark).2
  :=
  follow n 0 bookmark

end GoesOn

end Navigation

end CallGraph
