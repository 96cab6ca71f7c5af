import CallGraph.Proofs.Search.Parts

/-!
# Searches that are interrupted

A search is interrupted when its caller, or every search under way, is cancelled.  This may happen before any
of its requests, after the last one, and while the provider works on an answer, which it may then break off.
`Workspace.Ends` says how a search may end.  As long as it does not notice that it was cancelled, it does what it
does when it is left alone: `Ends.inStep` says so of searches that heed a conduct, `Ends.guarded` of those that
look at their caller once they are through.
-/

namespace CallGraph

variable {σ α β : Type}

/-- A provider that cancels no search and gives the same answers whatever was cancelled, but may break off an
answer for a search that was. -/
structure Provider.Heeds (p : Provider σ) : Prop where
  pose : ∀ q state searches, p.pose q ⟨state, searches⟩ =
    ((p.pose q ⟨state, {}⟩).1, ⟨(p.pose q ⟨state, {}⟩).2.state, searches⟩)
  answer : ∀ files q token state searches,
    p.answer files q token ⟨state, searches⟩ =
        ((p.answer files q token ⟨state, {}⟩).1, ⟨(p.answer files q token ⟨state, {}⟩).2.state, searches⟩) ∨
      (∃ t ∈ token, searches.isCancelled t = true) ∧
        ∃ state', p.answer files q token ⟨state, searches⟩ = (.error .cancelled, ⟨state', searches⟩)

/-- A provider that heeds cancellation cancels nothing itself. -/
theorem Provider.Heeds.leavesSearches {p : Provider σ} (h : p.Heeds) :
  p.LeavesSearches
  := by
  constructor
  · intro q d
    rw [h.pose q d.state d.searches]
  · intro files q token d
    rcases h.answer files q token d.state d.searches with heq | ⟨-, state', heq⟩
    · rw [heq]
    · rw [heq]

/-- A way to stop searches. -/
inductive Interruption where
  /-- The caller's token is cancelled. -/
  | caller
  /-- All searches under way are cancelled. -/
  | searches

/-- Cancelling tokens changes the record of cancelled tokens only, and adds to it. -/
theorem Signals.foldl_cancel_spec (ts : List Token) (s : Signals) (cancelled : List Token) :
  { ts.foldl cancel s with cancelled } = { s with cancelled } ∧
    ∀ t ∈ s.cancelled, t ∈ (ts.foldl cancel s).cancelled
  := by
  induction ts generalizing s with
  | nil => exact ⟨rfl, fun _ ht => ht⟩
  | cons t ts ih =>
    obtain ⟨hrecord, hmore⟩ := ih (s.cancel t)
    rw [List.foldl_cons, hrecord]
    refine ⟨?_, fun u hu => hmore u ((s.mem_cancelled_cancel t u).mpr (.inr hu))⟩
    rw [cancel]
    split <;> rfl

namespace Workspace

/-- The workspace after an interruption. -/
def interrupt (w : Workspace σ) (caller : Token) : Interruption → Workspace σ
  | .caller => w.signal (·.cancel caller)
  | .searches => w.cancelSearches

/-- The workspace with another state of the provider. -/
def withAnalysis (w : Workspace σ) (analysis : σ) : Workspace σ :=
  { w with analysis }

/-- The workspaces that interruptions of some kinds lead to. -/
inductive Interrupted (may : Interruption → Prop) (caller : Token) : Workspace σ → Workspace σ → Prop where
  | refl (w : Workspace σ) : Interrupted may caller w w
  | step {w w' : Workspace σ} {i : Interruption} (hi : may i)
      (rest : Interrupted may caller (w.interrupt caller i) w') :
      Interrupted may caller w w'

/-- The ways in which a search may end, and the workspace then, if there may be interruptions at any time. -/
inductive Ends (may : Interruption → Prop) (caller : Token) : Search α → Workspace σ → α → Workspace σ → Prop where
  | done {a : α} {w w' : Workspace σ} (h : Interrupted may caller w w') : Ends may caller (.done a) w a w'
  | perform {r : Request} {next : r.Reply → Search α} {w u w' : Workspace σ} {a : α}
      (h : Interrupted may caller w u) (rest : Ends may caller (next (u.perform r).1) (u.perform r).2 a w') :
      Ends may caller (.wait r next) w a w'
  /-- The search is cancelled while the provider works for it, and the provider breaks off in some state. -/
  | breakOff {q : Question} {t : Token} {next : (Request.await q (some t)).Reply → Search α}
      {w u w' : Workspace σ} {a : α} {i : Interruption} (h : Interrupted may caller w u) (hi : may i)
      (ht : (u.interrupt caller i).searches.isCancelled t = true) (state : σ)
      (rest : Ends may caller (next (.error .cancelled)) ((u.interrupt caller i).withAnalysis state) a w') :
      Ends may caller (.wait (.await q (some t)) next) w a w'

variable {may : Interruption → Prop} {caller : Token} {w w' u v : Workspace σ}

/-! ### Workspaces that differ in what was cancelled -/

/-- The workspace with another record of cancelled tokens. -/
def withCancelled (w : Workspace σ) (cancelled : List Token) : Workspace σ :=
  w.signal fun signals => { signals with cancelled }

/-- A workspace that is another one but for more tokens that were cancelled. -/
def Ahead (w v : Workspace σ) : Prop :=
  ∃ cancelled, v = w.withCancelled cancelled ∧ ∀ t ∈ cancelled, t ∈ w.searches.signals.cancelled

namespace Ahead

theorem refl (w : Workspace σ) :
  w.Ahead w
  :=
  ⟨w.searches.signals.cancelled, rfl, fun _ ht => ht⟩

theorem trans (h : w.Ahead v) (h' : v.Ahead u) :
  w.Ahead u
  := by
  obtain ⟨cancelled, rfl, hmore⟩ := h
  obtain ⟨cancelled', rfl, hmore'⟩ := h'
  exact ⟨cancelled', rfl, fun t ht => hmore t (hmore' t ht)⟩

theorem provider (h : w.Ahead v) :
  w.provider = v.provider
  := by
  obtain ⟨cancelled, rfl, -⟩ := h
  rfl

theorem nextNode (h : w.Ahead v) :
  w.nextNode = v.nextNode
  := by
  obtain ⟨cancelled, rfl, -⟩ := h
  rfl

/-- What was cancelled in the one workspace was so in the other. -/
theorem isCancelled (h : w.Ahead v) {t : Token} (ht : v.searches.isCancelled t = true) :
  w.searches.isCancelled t = true
  := by
  obtain ⟨cancelled, rfl, hmore⟩ := h
  obtain ⟨u, hu, hcovers⟩ := (Signals.isCancelled_iff _ t).mp ht
  exact (Signals.isCancelled_iff _ t).mpr ⟨u, hmore u hu, hcovers⟩

end Ahead

/-- An interruption only cancels. -/
theorem ahead_interrupt (w : Workspace σ) (caller : Token) (i : Interruption) :
  (w.interrupt caller i).Ahead w
  := by
  have hstep (ts : List Token) : (w.signal (ts.foldl Signals.cancel ·)).Ahead w := by
    obtain ⟨hrecord, hmore⟩ := Signals.foldl_cancel_spec ts w.searches.signals w.searches.signals.cancelled
    exact ⟨w.searches.signals.cancelled, congrArg (fun signals => w.signal fun _ => signals) hrecord.symm, hmore⟩
  cases i with
  | caller => exact hstep [caller]
  | searches => exact hstep w.searches.live

namespace Interrupted

theorem ahead (h : Interrupted may caller w u) :
  u.Ahead w
  := by
  induction h with
  | refl w => exact .refl w
  | step hi rest ih => exact ih.trans (ahead_interrupt _ caller _)

theorem trans (h : Interrupted may caller w u) (h' : Interrupted may caller u v) :
  Interrupted may caller w v
  := by
  induction h with
  | refl w => exact h'
  | step hi rest ih => exact .step hi (ih h')

/-- If only the caller is cancelled, nothing happens before that. -/
theorem eq_or_isCancelled (h : Interrupted (· = .caller) caller w u) :
  u = w ∨ u.searches.isCancelled caller = true
  := by
  cases h with
  | refl w => exact .inl rfl
  | step hi rest =>
    subst hi
    have hself : (w.interrupt caller .caller).searches.isCancelled caller = true :=
      (w.searches.isCancelled_cancel caller caller).mpr (.inl caller.covers_self)
    exact .inr (rest.ahead.isCancelled hself)

end Interrupted

/-! ### Requests -/

/-- What a provider does that leaves the searches alone. -/
theorem consult_of_eq {work : StateM (Provider.Desk σ) α} {a : α} {state : σ}
    (h : work ⟨w.analysis, w.searches⟩ = (a, ⟨state, w.searches⟩)) :
  w.consult work = (a, w.withAnalysis state)
  := by
  rw [consult, h]
  rfl

/-- A request of a search that heeds its conduct either shows the search that it was cancelled, which stops it,
or is replied to as if nothing had been cancelled. -/
theorem Ahead.perform (h : w.Ahead v) {c : Conduct} {stop : α → Prop} {r : Request} {next : r.Reply → Search α}
    (hr : r.Heeds c stop next) (hp : w.provider.Heeds) (hlive : ∀ t, c.looks t → v.searches.isCancelled t = false) :
  (∃ a, stop a ∧ next (w.perform r).1 = .done a) ∨
    (w.perform r).1 = (v.perform r).1 ∧ (w.perform r).2.Ahead (v.perform r).2
  := by
  obtain ⟨cancelled, rfl, hmore⟩ := h
  cases r with
  | isCancelled t =>
    cases ht : w.searches.isCancelled t with
    | true =>
      obtain ⟨a, ha, hnext⟩ := hr.2
      refine .inl ⟨a, ha, ?_⟩
      rw [show (w.perform (.isCancelled t)).1 = true from ht]
      exact hnext
    | false => exact .inr ⟨ht.trans (hlive t hr.1).symm, cancelled, rfl, hmore⟩
  | pose q =>
    have hw : w.perform (.pose q) = _ := consult_of_eq (hp.pose q w.analysis w.searches)
    have hv : (w.withCancelled cancelled).perform (.pose q) = _ :=
      consult_of_eq (hp.pose q w.analysis (w.withCancelled cancelled).searches)
    rw [hw, hv]
    exact .inr ⟨rfl, cancelled, rfl, hmore⟩
  | await q token =>
    rcases hp.answer w.files q token w.analysis w.searches with heq | ⟨⟨t, ht, -⟩, state', heq⟩
    · have hw : w.perform (.await q token) = _ := consult_of_eq heq
      have hanswer := hp.answer w.files q token w.analysis (w.withCancelled cancelled).searches
      rcases hanswer with heq' | ⟨⟨t, ht, hcancelled⟩, -⟩
      · have hv : (w.withCancelled cancelled).perform (.await q token) = _ := consult_of_eq heq'
        rw [hw, hv]
        exact .inr ⟨rfl, cancelled, rfl, hmore⟩
      · rw [hlive t (hr.2 t ht).1] at hcancelled
        cases hcancelled
    · have hw : w.perform (.await q token) = _ := consult_of_eq heq
      rw [hw]
      exact .inl (hr.2 t ht).2
  | freshToken | enter _ | leave _ | freshNode => cases hr
  | _ => exact .inr ⟨rfl, cancelled, rfl, hmore⟩

/-! ### How searches end -/

/-- A search that is left alone. -/
theorem ends_run (may : Interruption → Prop) (caller : Token) (s : Search α) (w : Workspace σ) :
  Ends may caller s w (w.run s).1 (w.run s).2
  := by
  induction s generalizing w with
  | done a => exact .done (.refl w)
  | wait r next ih => exact .perform (.refl w) (ih _ _)

namespace Ends

/-- One search after the other. -/
theorem of_bind {s : Search α} {f : α → Search β} {b : β} (h : Ends may caller (s >>= f) w b w') :
  ∃ a u, Ends may caller s w a u ∧ Ends may caller (f a) u b w'
  := by
  induction s generalizing w with
  | done a => exact ⟨a, w, .done (.refl w), h⟩
  | wait r next ih =>
    generalize ht : (Search.wait r next >>= f) = t at h
    cases h with
    | done h => cases ht
    | perform h rest =>
      cases ht
      obtain ⟨a, u, hfirst, hrest⟩ := ih _ rest
      exact ⟨a, u, .perform h hfirst, hrest⟩
    | breakOff h hi hcancelled state rest =>
      cases ht
      obtain ⟨a, u, hfirst, hrest⟩ := ih _ rest
      exact ⟨a, u, .breakOff h hi hcancelled state hfirst, hrest⟩

/-- A search of which interruptions come first. -/
theorem of_interrupted {s : Search α} {a : α} (hw : Interrupted may caller w u) (h : Ends may caller s u a w') :
  Ends may caller s w a w'
  := by
  cases h with
  | done h => exact .done (hw.trans h)
  | perform h rest => exact .perform (hw.trans h) rest
  | breakOff h hi hcancelled state rest => exact .breakOff (hw.trans h) hi hcancelled state rest

/-- A single request other than that for an answer. -/
theorem of_request {r : Request} {f : r.Reply → Search α} {a : α} (hr : ∀ q token, r ≠ .await q token)
    (h : Ends may caller (Search.request r >>= f) w a w') :
  ∃ u, Interrupted may caller w u ∧ Ends may caller (f (u.perform r).1) (u.perform r).2 a w'
  := by
  cases h with
  | perform h rest => exact ⟨_, h, rest⟩
  | breakOff => exact absurd rfl (hr _ _)

variable {c : Conduct} {stop : α → Prop}

/-- A search that was stopped. -/
theorem of_stopped {s : Search α} {a : α} (h : Ends may caller s w a w') (hs : ∃ b, stop b ∧ s = .done b) :
  stop a
  := by
  obtain ⟨b, hb, rfl⟩ := hs
  cases h
  exact hb

/-- A search that heeds its conduct stops, or does what it does when it is left alone. -/
theorem inStep {s : Search α} {a : α} (h : Ends may caller s w a w') (hs : s.Heeds c stop) (hp : w.provider.Heeds)
    (hv : w.Ahead v) (hlive : ∀ t, c.looks t → v.searches.isCancelled t = false) :
  stop a ∨ a = (v.run s).1 ∧ w'.Ahead (v.run s).2
  := by
  induction h generalizing v with
  | done h => exact .inr ⟨rfl, h.ahead.trans hv⟩
  | @perform r next w u w' a h rest ih =>
    have hprovider : u.provider = w.provider := h.ahead.provider
    rcases (h.ahead.trans hv).perform hs.1 (by rwa [hprovider]) hlive with hstop | ⟨hreply, hahead⟩
    · exact .inl (rest.of_stopped hstop)
    · rw [run_wait, ← hreply]
      apply ih (hs.2 _) _ hahead
      · intro t ht
        rw [isCancelled_perform]
        · exact hlive t ht
        · rw [← (h.ahead.trans hv).provider, hprovider]
          exact hp.leavesSearches
      · rw [perform_provider, hprovider]
        exact hp
  | breakOff h hi hcancelled state rest ih => exact .inl (rest.of_stopped (hs.1.2 _ rfl).2)

end Ends

end Workspace

/-! ### Searches that look at their caller in the end -/

/-- A look at the caller that is the last request, and stops the search if the caller was cancelled. -/
def Request.IsLastLook (caller : Token) (stop : α → Prop) : (r : Request) → (r.Reply → Search α) → Prop
  | .isCancelled t, next => t = caller ∧ (∃ a, stop a ∧ next true = .done a) ∧ ∃ a, next false = .done a
  | _, _ => False

/-- A search that does not end without a last look at its caller, unless it stops. -/
def Search.Guarded (caller : Token) (stop : α → Prop) : Search α → Prop
  | .done a => stop a
  | .wait r next => r.IsLastLook caller stop next ∨ ∀ reply, (next reply).Guarded caller stop

/-- Whatever comes before a guarded search. -/
theorem Search.Guarded.bind (s : Search α) {f : α → Search β} {caller : Token} {last : β → Prop}
    (hf : ∀ a, (f a).Guarded caller last) :
  (s >>= f).Guarded caller last
  := by
  induction s with
  | done a => exact hf a
  | wait r next ih => exact .inr ih

namespace Workspace.Ends

variable {may : Interruption → Prop} {caller : Token} {w w' : Workspace σ} {stop : α → Prop} {s : Search α} {a : α}

/-- A guarded search whose caller was cancelled stops. -/
theorem of_cancelled (h : Ends may caller s w a w') (hs : s.Guarded caller stop) (hp : w.provider.LeavesSearches)
    (hcancelled : w.searches.isCancelled caller = true) :
  stop a
  := by
  induction h with
  | done h => exact hs
  | @perform r next w u w' a h rest ih =>
    have hcaller : u.searches.isCancelled caller = true := h.ahead.isCancelled hcancelled
    have hprovider : u.provider.LeavesSearches := by rwa [h.ahead.provider]
    rcases hs with hlook | hs
    · cases r with
      | isCancelled t =>
        obtain ⟨rfl, ⟨b, hb, hnext⟩, -⟩ := hlook
        apply rest.of_stopped ⟨b, hb, ?_⟩
        rw [show (u.perform (.isCancelled t)).1 = true from hcaller]
        exact hnext
      | _ => cases hlook
    · apply ih (hs _)
      · rwa [perform_provider]
      · rwa [isCancelled_perform hprovider]
  | @breakOff q t next w u w' a i h hi _ state rest ih =>
    have hahead := (u.ahead_interrupt caller i).trans h.ahead
    rcases hs with hlook | hs
    · cases hlook
    · apply ih (hs _)
      · rwa [← hahead.provider] at hp
      · exact hahead.isCancelled hcancelled

/-- If only the caller is cancelled, a guarded search stops or does what it does when it is left alone. -/
theorem guarded (h : Ends (· = .caller) caller s w a w') (hs : s.Guarded caller stop)
    (hp : w.provider.LeavesSearches) :
  stop a ∨ a = (w.run s).1 ∧ w'.Ahead (w.run s).2
  := by
  induction h with
  | done h => exact .inl hs
  | @perform r next w u w' a h rest ih =>
    have hstops (hcancelled : u.searches.isCancelled caller = true) : stop a := by
      apply (perform (.refl u) rest : Ends _ caller (.wait r next) u a w').of_cancelled hs _ hcancelled
      rwa [h.ahead.provider]
    rcases h.eq_or_isCancelled with rfl | hcancelled
    · rcases hs with hlook | hs
      · cases r with
        | isCancelled t =>
          obtain ⟨rfl, htrue, hfalse⟩ := hlook
          cases hreply : (u.perform (.isCancelled t)).1 with
          | true =>
            rw [hreply] at rest
            exact .inl (rest.of_stopped htrue)
          | false =>
            obtain ⟨b, hb⟩ := hfalse
            have hrun : u.run (.wait (.isCancelled t) next) = (b, u) := by
              rw [run_wait, hreply, hb]
              rfl
            rw [hreply, hb] at rest
            rw [hrun]
            cases rest with
            | done h => exact .inr ⟨rfl, h.ahead⟩
        | _ => cases hlook
      · apply ih (hs _)
        rwa [perform_provider]
    · exact .inl (hstops hcancelled)
  | @breakOff q t next w u w' a i h hi hcancelled state rest ih =>
    subst hi
    have hahead := (u.ahead_interrupt caller .caller).trans h.ahead
    rcases hs with hlook | hs
    · cases hlook
    · left
      apply rest.of_cancelled (hs _)
      · rwa [← hahead.provider] at hp
      · exact (Searches.isCancelled_cancel _ caller caller).mpr (.inl caller.covers_self)

end Workspace.Ends

end CallGraph
