import CallGraph.Proofs.Search.Independent
import CallGraph.Proofs.Search.Widening
import CallGraph.Proofs.SearchScope
import CallGraph.Workspace

/-!
# Providers that keep a record

A recorded provider answers as the provider itself does, and writes down which definitions it returned as scopes
around usages and as what module names stand for.  In a recorded workspace a search comes to the same as in the
workspace itself, and if it takes in no other definitions than those it is given, then all files that it adds to the
scope are files of definitions in the record.

A noted provider answers as the provider itself does, and writes down every question that is posed to it.  In a noted
workspace a search comes to the same as in the workspace itself, and what is written down are the questions of the
search, in order.  A search that `Asks` some questions only has no others written down.
-/

namespace CallGraph

/-! ### Providers that are recorded -/

variable {σ α : Type}

/-- The state of a provider and the definitions that it returned. -/
structure Recorded (σ : Type) where
  inner : σ
  returned : List Definition

namespace Recorded

/-- Lets the provider itself work and writes down what it returned. -/
def within (work : StateM (Provider.Desk σ) α) (returned : α → List Definition)
    (d : Provider.Desk (Recorded σ)) : α × Provider.Desk (Recorded σ) :=
  let (a, inner) := work ⟨d.state.inner, d.searches⟩
  (a, ⟨⟨inner.state, d.state.returned ++ returned a⟩, inner.searches⟩)

/-- A provider that is recorded. -/
def provider (p : Provider σ) : Provider (Recorded σ) where
  name := p.name
  pose q := within (p.pose q) fun _ => []
  ready q x := p.ready q x.inner
  answer files q token := within (p.answer files q token) (Request.given [] (.await q token))

end Recorded

/-- A workspace with a provider that is recorded, and what it returned so far. -/
def Workspace.recorded (w : Workspace σ) (returned : List Definition) : Workspace (Recorded σ) where
  provider := Recorded.provider w.provider
  analysis := ⟨w.analysis, returned⟩
  files := w.files
  config := w.config
  scope := w.scope
  searchPath := w.searchPath
  searches := w.searches
  nextNode := w.nextNode
  log := w.log

/-! ### What scopes grow by -/

/-- A scope that holds all files of another one, and beyond them only files of some definitions. -/
structure SearchScope.GrowsTo (s : SearchScope) (returned : List Definition) (s' : SearchScope) : Prop where
  present : s.files ⊆ s'.files
  added : ∀ q ∈ s'.files, q ∈ s.files ∨ ∃ d ∈ returned, d.path = some q

namespace SearchScope.GrowsTo

variable {s s' : SearchScope} {ds ds' : List Definition} {d : Definition} {file : Path}

theorem refl (s : SearchScope) (ds : List Definition) :
  s.GrowsTo ds s
  where
  present := List.Subset.refl _
  added _ hq := .inl hq

theorem mono (h : s.GrowsTo ds s') (hds : ds ⊆ ds') :
  s.GrowsTo ds' s'
  where
  present := h.present
  added q hq := (h.added q hq).imp_right fun ⟨d, hd, hpath⟩ => ⟨d, hds hd, hpath⟩

/-- The file of one of the definitions is added. -/
theorem insert (h : s.GrowsTo ds s') (hd : d ∈ ds) (hpath : d.path = some file) :
  s.GrowsTo ds (s'.insert file)
  := by
  unfold SearchScope.insert
  split
  · exact h
  · constructor
    · apply List.Subset.trans h.present
      apply List.subset_cons_self
    · intro q hq
      rcases List.mem_cons.mp hq with rfl | hq
      · exact .inr ⟨d, hd, hpath⟩
      · exact h.added q hq

end SearchScope.GrowsTo

namespace Workspace

variable {w : Workspace σ} {start : SearchScope} {returned given : List Definition}

/-- A request is replied to as without the record, and what was returned goes into the record. -/
theorem perform_recorded (w : Workspace σ) (returned : List Definition) (r : Request) :
  (w.recorded returned).perform r =
    ((w.perform r).1, (w.perform r).2.recorded (returned ++ r.given [] (w.perform r).1))
  := by
  cases r with
  | pose q => rfl
  | await q token => rfl
  | _ =>
    simp only [Request.given, List.append_nil]
    rfl

/-- What was given last is in the record. -/
theorem given_subset_record (r : Request) (reply : r.Reply) (hgiven : given ⊆ returned) :
  r.given given reply ⊆ returned ++ r.given [] reply
  := by
  cases r with
  | await q token =>
    cases reply with
    | ok a => apply List.subset_append_right
    | error e => apply List.subset_append_right
  | _ => exact List.subset_append_of_subset_left _ hgiven

/-- A request adds nothing to the scope but files of definitions in the record. -/
theorem growsTo_perform (h : start.GrowsTo returned w.scope) {r : Request} (hr : r.TakesIn given)
    (hgiven : given ⊆ returned) :
  start.GrowsTo (returned ++ r.given [] (w.perform r).1) (w.perform r).2.scope
  := by
  have hmono := h.mono (List.subset_append_left returned (r.given [] (w.perform r).1))
  cases r with
  | widen file =>
    obtain ⟨d, hd, hpath⟩ := hr
    exact hmono.insert (List.mem_append_left _ (hgiven hd)) hpath
  | _ => exact hmono

/-- A search is run as without the record, and adds nothing to the scope but files of definitions in the record. -/
theorem exists_run_recorded {s : Search α} (hs : s.TakesIn given) (hgiven : given ⊆ returned)
    (h : start.GrowsTo returned w.scope) :
  ∃ returned', (w.recorded returned).run s = ((w.run s).1, (w.run s).2.recorded returned') ∧
    start.GrowsTo returned' (w.run s).2.scope
  := by
  induction s generalizing w given returned with
  | done a => exact ⟨returned, rfl, h⟩
  | wait r next ih =>
    rw [run, perform_recorded]
    apply ih _ (hs.2 _)
    · apply given_subset_record r _ hgiven
    · apply growsTo_perform h hs.1 hgiven

/-- Where a search is held back, it was given nothing yet. -/
theorem exists_advance_recorded {s : Search α} (hs : s.TakesIn given) (hgiven : given ⊆ returned)
    (h : start.GrowsTo returned w.scope) :
  (w.advance s).1.TakesIn [] ∧
    ∃ returned', (w.recorded returned).advance s = ((w.advance s).1, (w.advance s).2.recorded returned') ∧
      start.GrowsTo returned' (w.advance s).2.scope
  := by
  induction s generalizing w given returned with
  | done a => exact ⟨trivial, returned, rfl, h⟩
  | wait r next ih =>
    have hready : (w.recorded returned).isReady r = w.isReady r := by
      cases r <;> rfl
    rw [advance, advance, hready, perform_recorded]
    cases hheld : w.isReady r with
    | true =>
      apply ih _ (hs.2 _)
      · apply given_subset_record r _ hgiven
      · apply growsTo_perform h hs.1 hgiven
    | false =>
      refine ⟨?_, returned, rfl, h⟩
      cases r with
      | await q token =>
        refine ⟨trivial, fun reply => ?_⟩
        cases reply with
        | ok a => exact hs.2 (.ok a)
        | error e => exact hs.2 (.error e)
      | _ => cases hheld

end Workspace

/-! ### Providers whose questions are noted -/

section

variable {σ α β : Type}

/-- The state of a provider and the questions that were posed to it. -/
structure Noted (σ : Type) where
  inner : σ
  asked : List Question

namespace Noted

/-- Lets the provider itself work and writes down what it was asked. -/
def within (work : StateM (Provider.Desk σ) α) (asked : List Question)
    (d : Provider.Desk (Noted σ)) : α × Provider.Desk (Noted σ) :=
  let (a, inner) := work ⟨d.state.inner, d.searches⟩
  (a, ⟨⟨inner.state, d.state.asked ++ asked⟩, inner.searches⟩)

/-- A provider whose questions are noted. -/
def provider (p : Provider σ) : Provider (Noted σ) where
  name := p.name
  pose q := within (p.pose q) [q]
  ready q x := p.ready q x.inner
  answer files q token := within (p.answer files q token) []

end Noted

/-- The questions that a request poses. -/
def Request.questions : Request → List Question
  | pose q => [q]
  | await _ _ | isCancelled _ | freshToken | enter _ | leave _ | searchedFiles | widen _ | searchPath | config | files
  | log _ | freshNode => []

namespace Workspace

/-- A workspace whose provider has its questions noted, and those that it was asked so far. -/
def noted (w : Workspace σ) (asked : List Question) : Workspace (Noted σ) where
  provider := Noted.provider w.provider
  analysis := ⟨w.analysis, asked⟩
  files := w.files
  config := w.config
  scope := w.scope
  searchPath := w.searchPath
  searches := w.searches
  nextNode := w.nextNode
  log := w.log

/-- The questions that a search poses when it is run, in order. -/
def questions : Search α → Workspace σ → List Question
  | .done _, _ => []
  | .wait r next, w => r.questions ++ questions (next (w.perform r).1) (w.perform r).2

/-- A request is replied to as without the notes, and what it poses is noted. -/
theorem perform_noted (w : Workspace σ) (asked : List Question) (r : Request) :
  (w.noted asked).perform r = ((w.perform r).1, (w.perform r).2.noted (asked ++ r.questions))
  := by
  cases r with
  | pose q => rfl
  | await q token => rfl
  | _ =>
    simp only [Request.questions, List.append_nil]
    rfl

/-- A search is run as without the notes, and its questions are noted. -/
theorem run_noted (s : Search α) (w : Workspace σ) (asked : List Question) :
  (w.noted asked).run s = ((w.run s).1, (w.run s).2.noted (asked ++ w.questions s))
  := by
  induction s generalizing w asked with
  | done a =>
    rw [questions, List.append_nil]
    rfl
  | wait r next ih => rw [run_wait, perform_noted, ih, run_wait, questions, List.append_assoc]

/-- One search after the other asks the questions of both. -/
theorem questions_bind (s : Search α) (f : α → Search β) (w : Workspace σ) :
  w.questions (s >>= f) = w.questions s ++ (w.run s).2.questions (f (w.run s).1)
  := by
  induction s generalizing w with
  | done a => rfl
  | wait r next ih =>
    have hbind : (Search.wait r next >>= f) = .wait r fun reply => next reply >>= f := rfl
    rw [hbind, questions, questions, ih, run_wait, List.append_assoc]

/-- Whoever asks a question asks no other one. -/
theorem questions_ask (q : Question) (token : Option Token) (w : Workspace σ) :
  w.questions (Search.ask q token) = [q]
  := by
  rw [Search.ask, questions_bind]
  cases (w.run (Search.request (.pose q))).1 with
  | error e => rfl
  | ok => rfl

/-- A search that asks some questions only poses no others. -/
theorem mem_questions {asks : Question → Prop} {s : Search α} (h : s.Asks asks) {w : Workspace σ} {q : Question}
    (hq : q ∈ w.questions s) :
  asks q
  := by
  induction s generalizing w with
  | done a => cases hq
  | wait r next ih =>
    rw [questions, List.mem_append] at hq
    rcases hq with hposed | hnext
    · cases r with
      | pose q' =>
        rw [List.mem_singleton.mp hposed]
        exact h.1
      | _ => cases hposed
    · exact ih _ (h.2 _) hnext

end Workspace

end

end CallGraph
