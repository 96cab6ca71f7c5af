import CallGraph.Proofs.Search.Roots
import CallGraph.Proofs.Source.Index

/-!
# Workspaces that answer from an index

What a workspace does whose provider answers from an index over files that stay as they are: it goes on to do so
through every search, and no search cancels anything.  Nor is a question of a search that goes on answered as a
cancelled one.
-/

namespace CallGraph

open Source

/-- The number that a token was given out under. -/
def Token.number : Token → Nat
  | .root number => number
  | .under _ number => number

/-- Only tokens that were given out are cancelled. -/
def Signals.IsNumbered (s : Signals) : Prop :=
  ∀ t ∈ s.cancelled, t.number < s.next

/-- A new token below one that is not cancelled is not cancelled. -/
theorem Signals.IsNumbered.isCancelled_freshBelow {s : Signals} (h : s.IsNumbered) {upper : Token}
    (hupper : s.isCancelled upper = false) :
  (s.freshBelow upper).2.isCancelled (s.freshBelow upper).1 = false
  := by
  have hnot : (Token.under upper s.next) ∉ s.cancelled := fun hmem => Nat.lt_irrefl _ (h _ hmem)
  have hbelow : s.isCancelled (.under upper s.next) = false := by
    rw [isCancelled, hupper, Bool.or_false, ← Bool.not_eq_true, List.contains_iff_mem]
    exact hnot
  have hcancelled : (s.freshBelow upper).2.cancelled = s.cancelled := rfl
  rw [isCancelled_congr hcancelled]
  exact hbelow

variable {files : FileTree}

/-! ### Answers that are no cancellations -/

namespace Source

/-- A computation that does not end as a cancelled one does. -/
def Uncancelled {α : Type} (x : ExceptT ProviderError Id α) : Prop :=
  x ≠ .error .cancelled

namespace Uncancelled

variable {α β : Type}

theorem pure (a : α) :
  Uncancelled (Pure.pure a)
  :=
  nofun

theorem bind {x : ExceptT ProviderError Id α} {f : α → ExceptT ProviderError Id β} (h : Uncancelled x)
    (hf : ∀ a, Uncancelled (f a)) :
  Uncancelled (x >>= f)
  := by
  cases x with
  | ok a => exact hf a
  | error e =>
    rintro ⟨⟩
    exact h rfl

end Uncancelled

section Survey

variable [Parser] {searchPath : List Path}

theorem uncancelled_outline (p : Path) :
  Uncancelled ((fresh files searchPath).outline p)
  := by
  change outlineNow files searchPath p ≠ _
  unfold outlineNow
  split
  · exact nofun
  · split <;> exact nofun

theorem uncancelled_inModule (module name : String) (extra : Option Path) :
  Uncancelled ((fresh files searchPath).inModule module name extra)
  := by
  have hfound (ds : List Definition) : Uncancelled
      (if ds.isEmpty then pure ((fresh files searchPath).locatedModule (module ++ "." ++ name) extra) else pure ds) := by
    split <;> exact .pure _
  unfold Survey.inModule
  split
  · exact (uncancelled_outline _).bind fun o => hfound _
  · exact hfound []

theorem uncancelled_lookupName (o : Outline) (scope : Nat) (name : String) :
  Uncancelled ((fresh files searchPath).lookupName o scope name)
  := by
  unfold Survey.lookupName
  split
  · exact .pure _
  · split
    · split
      · exact uncancelled_inModule _ _ _
      · exact .pure _
    · exact .pure _

theorem uncancelled_membersOfClasses (name : String) (classes : List Definition) :
  Uncancelled ((fresh files searchPath).membersOfClasses name classes)
  := by
  induction classes with
  | nil => exact .pure _
  | cons d classes ih =>
    have hmembers : Uncancelled ((fresh files searchPath).members name d) := by
      unfold Survey.members
      split
      · exact .pure _
      · exact (uncancelled_outline _).bind fun o => .pure _
    have hrest (first : List Definition) : Uncancelled
        ((fresh files searchPath).membersOfClasses name classes >>= fun rest => pure (first ++ rest)) :=
      ih.bind fun rest => .pure _
    unfold Survey.membersOfClasses
    split
    · exact hmembers.bind hrest
    · exact hrest []

theorem uncancelled_lookupAttribute (o : Outline) (scope : Nat) (name : String) (receiver : Receiver) :
  Uncancelled ((fresh files searchPath).lookupAttribute o scope name receiver)
  := by
  induction receiver generalizing name with
  | own =>
    unfold Survey.lookupAttribute
    exact .pure _
  | object className =>
    unfold Survey.lookupAttribute
    exact (uncancelled_lookupName o scope className).bind fun classes => uncancelled_membersOfClasses name classes
  | objectOf owner className ih =>
    unfold Survey.lookupAttribute
    exact (ih className).bind fun classes => uncancelled_membersOfClasses name classes
  | dotted head rest =>
    unfold Survey.lookupAttribute
    split
    · exact uncancelled_inModule _ _ _
    · split
      · exact (uncancelled_lookupName o scope head).bind fun classes => uncancelled_membersOfClasses name classes
      · exact .pure _

/-- Looking for the definitions behind a call site is not cancelled. -/
theorem uncancelled_targets (site : CallSite) :
  Uncancelled ((fresh files searchPath).targets site)
  := by
  unfold Survey.targets
  split
  · exact .pure _
  · apply (uncancelled_outline _).bind
    intro o
    dsimp only
    split
    · exact .pure _
    · unfold Survey.lookup
      split
      · exact uncancelled_lookupName o _ _
      · exact uncancelled_lookupAttribute o _ _ _

/-- Looking for the scope around a usage is not cancelled. -/
theorem uncancelled_enclosing (u : Usage) :
  Uncancelled ((fresh files searchPath).enclosing u)
  := by
  unfold Survey.enclosing
  split
  · exact nofun
  · apply (uncancelled_outline _).bind
    intro o
    dsimp only
    split
    · exact .pure _
    · exact nofun

end Survey

/-- An index cancels only what reading every file anew would. -/
theorem Index.Reached.answer_ne_cancelled [Parser] {x : Index} (hx : x.Reached files) {q : Question}
    (hq : ∀ searchPath, (fresh files searchPath).answer q ≠ .error .cancelled) :
  (Index.answer files q x).1 ≠ .error .cancelled
  := by
  intro hcancelled
  have hout := (hx.isCurrent.answer q).1
  rw [hcancelled] at hout
  generalize hfresh : (fresh files _).answer q = r at hout
  cases hout with
  | error he =>
    cases he
    exact hq _ hfresh

end Source

/-! ### Workspaces -/

variable [Parser]

/-- A workspace over files of which nothing was read yet. -/
def Workspace.unread (files : FileTree) : Workspace Index :=
  { provider := Index.provider, analysis := {}, files, config := {} }

/-- A workspace over files whose provider answers from an index. -/
structure Workspace.Consults (w : Workspace Index) (files : FileTree) : Prop where
  analysis : w.analysis.Reached files
  provider : w.provider = Index.provider
  files : w.files = files

namespace Workspace.Consults

variable {w : Workspace Index} (h : w.Consults files)

include h

theorem perform_pose (q : Question) :
  w.perform (.pose q) = (.ok (), w)
  := by
  change w.consult (w.provider.pose q) = _
  rw [h.provider]
  rfl

theorem perform_await (q : Question) (token : Option Token) :
  w.perform (.await q token) =
    if Provider.Desk.isCancelled ⟨w.analysis, w.searches⟩ token then (.error .cancelled, w)
    else ((Index.answer files q w.analysis).1, { w with analysis := (Index.answer files q w.analysis).2 })
  := by
  change w.consult (w.provider.answer w.files q token) = _
  have hasked : w.provider.answer w.files q token = Index.provider.answer files q token := by
    rw [h.provider, h.files]
  rw [hasked, consult, Index.provider]
  dsimp only
  cases Provider.Desk.isCancelled ⟨w.analysis, w.searches⟩ token with
  | true => rfl
  | false => rfl

theorem perform (r : Request) :
  (w.perform r).2.Consults files
  := by
  refine ⟨?_, w.perform_provider r ▸ h.provider, w.files_perform r ▸ h.files⟩
  cases r with
  | pose q =>
    rw [h.perform_pose]
    exact h.analysis
  | await q token =>
    rw [h.perform_await]
    split
    · exact h.analysis
    · exact h.analysis.answer q
  | _ => exact h.analysis

theorem run {α : Type} (s : Search α) :
  (w.run s).2.Consults files
  := by
  induction s generalizing w with
  | done a => exact h
  | wait r next ih => exact ih _ (h.perform r)

/-- Whoever asks outside of any search gets the answer of the index. -/
theorem answerNow_eq (q : Question) :
  w.answerNow q = (Index.answer files q w.analysis).1
  := by
  have hposed : w.run (Search.request (.pose q)) = (.ok (), w) := h.perform_pose q
  have hawaited : (w.run (Search.request (.await q none))).1 = (Index.answer files q w.analysis).1 := by
    change (w.perform (.await q none)).1 = _
    rw [h.perform_await]
    rfl
  rw [answerNow, Search.ask, run_bind, hposed]
  exact hawaited

/-- Whoever asks on behalf of a search that was not cancelled gets it as well. -/
theorem run_ask (q : Question) {token : Token} (hlive : w.searches.isCancelled token = false) :
  (w.run (Search.ask q (some token))).1 = (Index.answer files q w.analysis).1
  := by
  have hposed : w.run (Search.request (.pose q)) = (.ok (), w) := h.perform_pose q
  have hdesk : Provider.Desk.isCancelled ⟨w.analysis, w.searches⟩ (some token) = false := hlive
  rw [Search.ask, run_bind, hposed]
  change (w.perform (.await q (some token))).1 = _
  rw [h.perform_await, hdesk]
  rfl

/-- A request cancels nothing and takes no number back. -/
theorem signals_perform (r : Request) :
  (w.perform r).2.searches.signals.cancelled = w.searches.signals.cancelled ∧
    w.searches.signals.next ≤ (w.perform r).2.searches.signals.next
  := by
  cases r with
  | pose q =>
    rw [h.perform_pose]
    exact ⟨rfl, Nat.le_refl _⟩
  | await q token =>
    rw [h.perform_await]
    split
    · exact ⟨rfl, Nat.le_refl _⟩
    · exact ⟨rfl, Nat.le_refl _⟩
  | freshToken => exact ⟨rfl, Nat.le_succ _⟩
  | enter caller => exact ⟨rfl, Nat.le_succ _⟩
  | _ => exact ⟨rfl, Nat.le_refl _⟩

theorem isCancelled_perform (r : Request) (t : Token) :
  (w.perform r).2.searches.isCancelled t = w.searches.isCancelled t
  :=
  Signals.isCancelled_congr (h.signals_perform r).1 t

/-- A search cancels nothing. -/
theorem isCancelled_run {α : Type} (s : Search α) (t : Token) :
  (w.run s).2.searches.isCancelled t = w.searches.isCancelled t
  := by
  induction s generalizing w with
  | done a => rfl
  | wait r next ih => exact (ih _ (h.perform r)).trans (h.isCancelled_perform r t)

theorem isNumbered_perform (hnumbered : w.searches.signals.IsNumbered) (r : Request) :
  (w.perform r).2.searches.signals.IsNumbered
  := by
  obtain ⟨hcancelled, hnext⟩ := h.signals_perform r
  intro t ht
  rw [hcancelled] at ht
  exact Nat.lt_of_lt_of_le (hnumbered t ht) hnext

end Workspace.Consults

end CallGraph
