import CallGraph.Proofs.Search.Parts
import CallGraph.Proofs.SearchScope

/-!
# Transcripts

The transcript of a search holds the answers that it was given to its questions, refusals among them, and the files
by which it widened the scope.  `Search.Yields` says of a search, whoever runs it, what its result has to do with its
transcript, as long as all replies are of some admitted sort; `Search.Yields.run` brings this to a workspace.  What
widens the scope is always as the transcript says.
-/

namespace CallGraph

variable {σ α β : Type}

/-- A question and what was answered. -/
structure Answered where
  question : Question
  answer : Except ProviderError question.Answer

/-- What can be seen of a search from outside. -/
structure Transcript where
  answers : List Answered := []
  widened : List Path := []

namespace Transcript

instance : Append Transcript where
  append t t' := ⟨t.answers ++ t'.answers, t.widened ++ t'.widened⟩

theorem append_empty (t : Transcript) :
  t ++ {} = t
  := by
  change Transcript.mk (t.answers ++ []) (t.widened ++ []) = t
  rw [List.append_nil, List.append_nil]

theorem append_assoc (t t' t'' : Transcript) :
  t ++ t' ++ t'' = t ++ (t' ++ t'')
  := by
  change Transcript.mk (t.answers ++ t'.answers ++ t''.answers) (t.widened ++ t'.widened ++ t''.widened) = _
  rw [List.append_assoc, List.append_assoc]
  rfl

end Transcript

/-! ### Replies -/

namespace Request

/-- What a reply adds to the transcript. -/
def transcript : (r : Request) → r.Reply → Transcript
  | pose q, .error e => ⟨[⟨q, .error e⟩], []⟩
  | pose _, .ok _ => {}
  | await q _, answer => ⟨[⟨q, answer⟩], []⟩
  | widen file, _ => ⟨[], [file]⟩
  | isCancelled _, _ | freshToken, _ | enter _, _ | leave _, _ | searchedFiles, _ | searchPath, _ | config, _
  | files, _ | log _, _ | freshNode, _ => {}

/-- Whether a request leaves nothing in the transcript. -/
def isQuiet : Request → Bool
  | pose _ | await _ _ | widen _ => false
  | isCancelled _ | freshToken | enter _ | leave _ | searchedFiles | searchPath | config | files | log _
  | freshNode => true

theorem transcript_of_isQuiet {r : Request} (h : r.isQuiet = true) (reply : r.Reply) :
  r.transcript reply = {}
  := by
  cases r with
  | pose q => cases h
  | await q token => cases h
  | widen file => cases h
  | _ => rfl

/-- Whether a reply says that the search was cancelled. -/
def cancels : (r : Request) → r.Reply → Bool
  | pose _, .error e => e.isCancelled
  | await _ _, .error e => e.isCancelled
  | isCancelled _, cancelled => cancelled
  | pose _, .ok _ | await _ _, .ok _ | freshToken, _ | enter _, _ | leave _, _ | searchedFiles, _ | widen _, _
  | searchPath, _ | config, _ | files, _ | log _, _ | freshNode, _ => false

end Request

/-- Which replies are admitted. -/
abbrev Admission : Type :=
  (r : Request) → r.Reply → Bool

namespace Admission

/-- Replies that do not say that the search was cancelled. -/
def uncancelled : Admission
  | r, reply => !r.cancels reply

/-- Replies that go with the mode. -/
def ofMode (experimental : Bool) : Admission
  | .config, values => values.experimentalMode == experimental
  | _, _ => true

end Admission

namespace Workspace

/-- The transcript of a search that is run. -/
def transcript : Search α → Workspace σ → Transcript
  | .done _, _ => {}
  | .wait r next, w => r.transcript (w.perform r).1 ++ transcript (next (w.perform r).1) (w.perform r).2

/-- Whether a search that is run has none but admitted replies. -/
def grants (admits : Admission) : Search α → Workspace σ → Bool
  | .done _, _ => true
  | .wait r next, w => admits r (w.perform r).1 && grants admits (next (w.perform r).1) (w.perform r).2

/-- The scope grows by one file at a time, if at all. -/
theorem scope_perform (w : Workspace σ) (r : Request) :
  (w.perform r).2.scope = w.scope.insertAll (r.transcript (w.perform r).1).widened
  := by
  cases r with
  | pose q =>
    change w.scope = _
    cases (w.perform (.pose q)).1 with
    | error e => rfl
    | ok _ => rfl
  | _ => rfl

/-- The scope grows by the files in the transcript. -/
theorem scope_run (s : Search α) (w : Workspace σ) :
  (w.run s).2.scope = w.scope.insertAll (w.transcript s).widened
  := by
  induction s generalizing w with
  | done a => rfl
  | wait r next ih =>
    rw [run_wait, ih, scope_perform, ← SearchScope.insertAll_append]
    rfl

/-- In a workspace the mode is always the same. -/
theorem grants_ofMode (s : Search α) (w : Workspace σ) :
  w.grants (.ofMode w.getConfig.1.experimentalMode) s = true
  := by
  induction s generalizing w with
  | done a => rfl
  | wait r next ih =>
    rw [grants, Bool.and_eq_true]
    refine ⟨?_, ?_⟩
    · cases r with
      | config => exact beq_self_eq_true _
      | _ => rfl
    · rw [← w.getConfig_perform r]
      exact ih _ _

end Workspace

/-! ### Searches -/

namespace Search

variable {admits : Admission} {P : α → Transcript → Prop} {Q : β → Transcript → Prop}

/-- As long as only admitted replies are given, the result of a search and its transcript have a property. -/
def Yields (admits : Admission) : Search α → (α → Transcript → Prop) → Prop
  | done a, P => P a {}
  | wait r next, P => ∀ reply, admits r reply = true →
      (next reply).Yields admits fun a t => P a (r.transcript reply ++ t)

/-- What a search yields holds of it in a workspace. -/
theorem Yields.run {s : Search α} (h : s.Yields admits P) {w : Workspace σ} (hgrants : w.grants admits s = true) :
  P (w.run s).1 (w.transcript s)
  := by
  induction s generalizing w P with
  | done a => exact h
  | wait r next ih =>
    rw [Workspace.grants, Bool.and_eq_true] at hgrants
    exact ih _ (h _ hgrants.1) hgrants.2

/-- A weaker property. -/
theorem Yields.imp {s : Search α} {P' : α → Transcript → Prop} (h : s.Yields admits P) (hP : ∀ a t, P a t → P' a t) :
  s.Yields admits P'
  := by
  induction s generalizing P P' with
  | done a => exact hP a {} h
  | wait r next ih => exact fun reply hreply => ih reply (h reply hreply) fun a t => hP a _

/-- One search after the other, with one transcript after the other. -/
theorem Yields.bind {s : Search α} {f : α → Search β} (h : s.Yields admits P)
    (hf : ∀ a t, P a t → (f a).Yields admits fun b t' => Q b (t ++ t')) :
  (s >>= f).Yields admits Q
  := by
  induction s generalizing P Q with
  | done a => exact hf a {} h
  | wait r next ih =>
    intro reply hreply
    apply ih reply (h reply hreply)
    intro a t hP
    apply (hf a _ hP).imp
    intro b t' hQ
    rw [Transcript.append_assoc] at hQ
    exact hQ

/-- What holds of all results and transcripts. -/
theorem yields_of_forall (s : Search α) (h : ∀ a t, P a t) :
  s.Yields admits P
  := by
  induction s generalizing P with
  | done a => exact h a {}
  | wait r next ih => exact fun reply _ => ih reply fun a t => h a _

/-- One search after any other. -/
theorem yields_bind (s : Search α) {f : α → Search β} (hf : ∀ a t, (f a).Yields admits fun b t' => Q b (t ++ t')) :
  (s >>= f).Yields admits Q
  :=
  Yields.bind (yields_of_forall s fun a t => hf a t) fun _ _ h => h

theorem yields_pure (a : α) (h : P a {}) :
  (pure a : Search α).Yields admits P
  :=
  h

/-- A single request. -/
theorem yields_request (r : Request) :
  (request r).Yields admits fun reply t => admits r reply = true ∧ t = r.transcript reply
  :=
  fun _ hreply => ⟨hreply, Transcript.append_empty _⟩

/-- A request that leaves nothing in the transcript. -/
theorem Yields.quiet_bind {r : Request} (hr : r.isQuiet = true) {f : r.Reply → Search β}
    (hf : ∀ reply, admits r reply = true → (f reply).Yields admits Q) :
  (request r >>= f).Yields admits Q
  := by
  apply (yields_request r).bind
  rintro reply t ⟨hreply, rfl⟩
  rw [Request.transcript_of_isQuiet hr]
  exact hf reply hreply

/-- Writing to the log. -/
theorem yields_log (line : LogLine) :
  (log line).Yields admits fun _ t => t = {}
  :=
  fun _ _ => rfl

/-- Reporting an error. -/
theorem yields_report (e : ProviderError) (context : String) :
  (report e context).Yields admits fun _ t => t = {}
  := by
  unfold report
  split
  · exact yields_log _
  · apply Yields.quiet_bind rfl
    intro values _
    split
    · exact yields_log _
    · exact yields_log _

/-- A question that is answered, be it with an error that does not say that the search was cancelled. -/
theorem yields_ask (q : Question) (token : Option Token) :
  (ask q token).Yields .uncancelled fun answer t =>
    t = ⟨[⟨q, answer⟩], []⟩ ∧ ∀ e, answer = .error e → e.isCancelled = false
  := by
  intro posed hposed
  cases posed with
  | error e =>
    refine ⟨rfl, ?_⟩
    rintro _ ⟨⟩
    exact (Bool.not_eq_true' _).mp hposed
  | ok _ =>
    intro answer hanswer
    refine ⟨rfl, ?_⟩
    rintro e rfl
    exact (Bool.not_eq_true' _).mp hanswer

end Search

/-! ### Searches that may fail -/

namespace Finding

/-- A search that is not cancelled has a result, which has a property together with the transcript. -/
def Finds (s : Finding α) (P : α → Transcript → Prop) : Prop :=
  s.run.Yields .uncancelled fun result t => ∃ a, result = .ok a ∧ P a t

variable {P P' : α → Transcript → Prop} {Q : β → Transcript → Prop}

theorem finds_pure (a : α) (h : P a {}) :
  (pure a : Finding α).Finds P
  :=
  ⟨a, rfl, h⟩

theorem Finds.imp {s : Finding α} (h : s.Finds P) (hP : ∀ a t, P a t → P' a t) :
  s.Finds P'
  := by
  apply Search.Yields.imp h
  rintro _ t ⟨a, rfl, ha⟩
  exact ⟨a, rfl, hP a t ha⟩

/-- One search after the other. -/
theorem Finds.bind {s : Finding α} {f : α → Finding β} (h : s.Finds P)
    (hf : ∀ a t, P a t → (f a).Finds fun b t' => Q b (t ++ t')) :
  (s >>= f).Finds Q
  := by
  apply Search.Yields.bind h
  rintro _ t ⟨a, rfl, ha⟩
  exact hf a t ha

/-- One search after another one that leaves nothing in the transcript. -/
theorem Finds.quiet_bind {s : Finding α} {f : α → Finding β} (h : s.Finds fun _ t => t = {})
    (hf : ∀ a, (f a).Finds Q) :
  (s >>= f).Finds Q
  := by
  apply h.bind
  rintro a _ rfl
  exact hf a

/-- A search that cannot fail. -/
theorem finds_lift {s : Search α} (h : s.Yields .uncancelled P) :
  Finds (ExceptT.lift s) P
  := by
  apply h.bind
  intro a t ha
  refine ⟨a, rfl, ?_⟩
  rw [Transcript.append_empty]
  exact ha

theorem finds_request (r : Request) :
  (request r).Finds fun reply t => t = r.transcript reply
  :=
  finds_lift ((Search.yields_request r).imp fun _ _ => And.right)

theorem finds_checkpoint (token : Token) :
  (checkpoint token).Finds fun _ t => t = {}
  := by
  intro cancelled hcancelled
  cases cancelled with
  | true => cases hcancelled
  | false => exact ⟨(), rfl, rfl⟩

/-- The result of a step, or the default. -/
theorem finds_contained {result : Except ProviderError α} (h : ∀ e, result = .error e → e.isCancelled = false)
    (default : α) (context : String) :
  (contained result default context).Finds fun a t => a = result.toOption.getD default ∧ t = {}
  := by
  cases result with
  | ok a => exact ⟨a, rfl, rfl, rfl⟩
  | error e =>
    have hreport : Finds (ExceptT.lift (Search.report e context) >>= fun _ => pure default) fun a t =>
        a = default ∧ t = {} :=
      (finds_lift (Search.yields_report e context)).quiet_bind fun _ => finds_pure _ ⟨rfl, rfl⟩
    cases e with
    | cancelled => cases h _ rfl
    | _ => exact hreport

/-- The answer to a question, or the default. -/
theorem finds_askContained (q : Question) (token : Token) (default : q.Answer) (context : String) :
  (askContained q token default context).Finds fun a t =>
    ∃ answer : Except ProviderError q.Answer, a = answer.toOption.getD default ∧ t = ⟨[⟨q, answer⟩], []⟩
  := by
  apply (finds_lift (Search.yields_ask q (some token))).bind
  rintro answer _ ⟨rfl, huncancelled⟩
  apply (finds_contained huncancelled default context).imp
  rintro a _ ⟨rfl, rfl⟩
  exact ⟨answer, rfl, rfl⟩

end Finding

/-! ### Searches for neighbours -/

namespace Search

/-- A search for neighbours that has a result gives it back. -/
theorem yields_neighbours {find : Token → Finding (List Vertex)} {P : List Vertex → Transcript → Prop}
    (hfind : ∀ token, (find token).Finds P) (caller : Token) (context : String) :
  (neighbours caller context find).Yields .uncancelled P
  := by
  apply Yields.quiet_bind rfl
  intro search _
  apply Yields.bind (hfind search)
  rintro _ t ⟨vs, rfl, hvs⟩
  apply Yields.quiet_bind rfl
  intro _ _
  apply yields_pure
  rw [Transcript.append_empty]
  exact hvs

/-- A node of a vertex. -/
def Shows (v : Vertex) (n : Node) : Prop :=
  ∃ number, n = .analyzed number v

/-- Nodes show the elements of their vertices. -/
theorem map_element_of_shows {vs : List Vertex} {ns : List Node} (h : List.Forall₂ Shows vs ns) :
  ns.map Node.element = vs.map Vertex.element
  := by
  induction h with
  | nil => rfl
  | cons hshows _ ih =>
    obtain ⟨number, rfl⟩ := hshows
    rw [List.map_cons, List.map_cons, ih]
    rfl

/-- Vertices become nodes one by one. -/
theorem yields_nodes (admits : Admission) (vs : List Vertex) :
  (nodes vs).Yields admits fun ns t => List.Forall₂ Shows vs ns ∧ t = {}
  := by
  induction vs with
  | nil => exact ⟨.nil, rfl⟩
  | cons v vs ih =>
    intro number _
    apply ih.bind
    rintro ns _ ⟨hns, rfl⟩
    exact ⟨.cons ⟨number, rfl⟩ hns, rfl⟩

end Search

end CallGraph
