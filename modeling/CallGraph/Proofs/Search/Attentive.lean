import CallGraph.Proofs.Search.Independent
import CallGraph.Proofs.Search.Offering

/-!
# Searches whose caller is cancelled meanwhile

`Search.Plays` says what may happen while a search runs, whoever replies to its requests: questions go to the
provider, the provider is done with them, and at any time, within a question or between two of them, the caller is
cancelled; from then on every look at a token below the caller's shows it.

A search is hushed if it asks nothing once its caller is cancelled, and attentive if it asks nothing more when its
caller is cancelled while a question is with the provider.  The expansion of a node is both, but for the members of
a package: those that are still to be resolved when the caller is cancelled are resolved all the same.
-/

namespace CallGraph

variable {α β : Type}

/-! ### What happens while a search runs -/

/-- What happens while a search runs. -/
inductive Happening where
  /-- A question goes to the provider. -/
  | asked (q : Question)
  /-- The provider is done with a question. -/
  | settled
  /-- The caller is cancelled. -/
  | cancelled

namespace Happening

/-- The question that goes to the provider. -/
def question? : Happening → Option Question
  | asked q => some q
  | settled => none
  | cancelled => none

/-- A cancellation, if the caller was not cancelled before and is so after. -/
def strike (before after : Bool) : List Happening :=
  if !before && after then [cancelled] else []

end Happening

/-- The questions that go to the provider, in order. -/
def asked (log : List Happening) : List Question :=
  log.filterMap Happening.question?

@[simp]
theorem asked_nil :
  asked [] = []
  := by
  rfl

@[simp]
theorem asked_cons_asked (q : Question) (log : List Happening) :
  asked (.asked q :: log) = q :: asked log
  := by
  rfl

@[simp]
theorem asked_cons_settled (log : List Happening) :
  asked (.settled :: log) = asked log
  := by
  rfl

@[simp]
theorem asked_cons_cancelled (log : List Happening) :
  asked (.cancelled :: log) = asked log
  := by
  rfl

@[simp]
theorem asked_append (log log' : List Happening) :
  asked (log ++ log') = asked log ++ asked log'
  := by
  exact List.filterMap_append

@[simp]
theorem asked_strike (before after : Bool) :
  asked (Happening.strike before after) = []
  := by
  cases before <;> cases after <;> rfl

/-- What stays as it is while a search runs: who wants it, the files and the search path. -/
structure Stage where
  caller : Token
  files : FileTree
  searchPath : List Path

namespace Request

/-- What a request makes happen before there is a reply. -/
def opens : Request → List Happening
  | pose q => [.asked q]
  | _ => []

/-- What happens with the reply to a request. -/
def closes : (r : Request) → r.Reply → List Happening
  | pose _, .error _ => [.settled]
  | await _ _, _ => [.settled]
  | _, _ => []

/-- Whether a reply fits the stage: tokens below the caller's are shown to be cancelled if the caller was so before
the request. -/
def Fits (g : Stage) (before : Bool) : (r : Request) → r.Reply → Prop
  | isCancelled t, reply => before = true → g.caller.Covers t → reply = true
  | enter upper, search => upper.Covers search
  | files, reply => reply = g.files
  | searchPath, reply => reply = g.searchPath
  | _, _ => True

end Request

/-- What may happen while a search runs, and its result.  The first flag tells whether the caller was cancelled
before, the second one whether it is so in the end. -/
inductive Search.Plays (g : Stage) : Bool → Search α → List Happening → α → Bool → Prop where
  | done (on : Bool) (a : α) : Plays g on (.done a) [] a on
  | cancel {s : Search α} {log : List Happening} {a : α} {on' : Bool} (h : Plays g true s log a on') :
      Plays g false s (.cancelled :: log) a on'
  | wait {on then' on' : Bool} {r : Request} {next : r.Reply → Search α} {reply : r.Reply} {log : List Happening}
      {a : α} (hkept : on = true → then' = true) (hfits : r.Fits g on reply)
      (h : Plays g then' (next reply) log a on') :
      Plays g on (.wait r next) (r.opens ++ Happening.strike on then' ++ r.closes reply ++ log) a on'

namespace Search

variable {g : Stage} {on on' : Bool} {log : List Happening}

namespace Plays

/-- A caller that was cancelled stays so. -/
theorem kept {s : Search α} {a : α} (h : s.Plays g on log a on') (hon : on = true ∨ .cancelled ∈ log) :
  on' = true
  := by
  induction h with
  | done on a => simpa using hon
  | cancel h ih => exact ih (.inl rfl)
  | @wait on then' on' r next reply log a hkept hfits h ih =>
    apply ih
    rcases hon with hon | hmem
    · exact .inl (hkept hon)
    · simp only [List.mem_append] at hmem
      obtain ((hmem | hmem) | hmem) | hmem := hmem
      · cases r <;> simp [Request.opens] at hmem
      · cases on <;> cases then' <;> simp [Happening.strike] at hmem ⊢
      · cases r with
        | pose q => cases reply <;> simp [Request.closes] at hmem
        | await q token => simp [Request.closes] at hmem
        | _ => cases hmem
      · exact .inr hmem

theorem of_done {a b : α} (h : (Search.done b).Plays g on log a on') :
  a = b ∧ log = Happening.strike on on'
  := by
  cases h with
  | done => exact ⟨rfl, by cases on <;> rfl⟩
  | cancel h =>
    cases h
    exact ⟨rfl, rfl⟩

/-- What a request makes happen comes first, but for a cancellation. -/
theorem of_wait {r : Request} {next : r.Reply → Search α} {a : α} (h : (Search.wait r next).Plays g on log a on') :
  ∃ before then' reply rest, log = Happening.strike on before ++ (r.opens ++ Happening.strike before then' ++
      r.closes reply ++ rest) ∧ (on = true → before = true) ∧ r.Fits g before reply ∧
    (next reply).Plays g then' rest a on' ∧ (before = true → then' = true)
  := by
  cases h with
  | cancel h =>
    cases h with
    | wait hkept hfits h => exact ⟨true, _, _, _, rfl, fun _ => rfl, hfits, h, hkept⟩
  | wait hkept hfits h => exact ⟨on, _, _, _, by cases on <;> rfl, id, hfits, h, hkept⟩

/-- The caller may be cancelled before a request. -/
theorem of_strike {r : Request} {next : r.Reply → Search α} {before then' : Bool} {reply : r.Reply} {a : α}
    (hbefore : on = true → before = true) (hkept : before = true → then' = true) (hfits : r.Fits g before reply)
    (h : (next reply).Plays g then' log a on') :
  (Search.wait r next).Plays g on (Happening.strike on before ++
    (r.opens ++ Happening.strike before then' ++ r.closes reply ++ log)) a on'
  := by
  have hwait := Plays.wait hkept hfits h
  cases on with
  | true =>
    obtain rfl := hbefore rfl
    exact hwait
  | false =>
    cases before with
    | true => exact .cancel hwait
    | false => exact hwait

/-- What happens in one search comes before what happens in the one that follows it. -/
theorem of_bind {s : Search α} {f : α → Search β} {b : β} (h : (s >>= f).Plays g on log b on') :
  ∃ then' log₁ log₂ a, log = log₁ ++ log₂ ∧ s.Plays g on log₁ a then' ∧ (f a).Plays g then' log₂ b on'
  := by
  induction s generalizing on log with
  | done a => exact ⟨on, [], log, a, rfl, .done on a, h⟩
  | wait r next ih =>
    have hwait : (Search.wait r fun reply => next reply >>= f).Plays g on log b on' := h
    obtain ⟨before, meanwhile, reply, rest, rfl, hbefore, hfits, hrest, hkept⟩ := hwait.of_wait
    obtain ⟨then', log₁, log₂, a, rfl, hfirst, hsecond⟩ := ih reply hrest
    refine ⟨then', _, log₂, a, ?_, of_strike hbefore hkept hfits hfirst, hsecond⟩
    simp only [List.append_assoc]

/-- What follows a request gets a reply that fits. -/
theorem of_request {r : Request} {f : r.Reply → Search β} {b : β} (hr : r.Asks fun _ => False)
    (h : (request r >>= f).Plays g on log b on') :
  ∃ before then' reply log₁ log₂, log = log₁ ++ log₂ ∧ asked log₁ = [] ∧ r.Fits g before reply ∧
    (f reply).Plays g then' log₂ b on'
  := by
  have hwait : (Search.wait r f).Plays g on log b on' := h
  obtain ⟨before, then', reply, rest, rfl, -, hfits, hrest, -⟩ := hwait.of_wait
  refine ⟨before, then', reply, Happening.strike on before ++ (r.opens ++ Happening.strike before then' ++
    r.closes reply), rest, (List.append_assoc _ _ _).symm, ?_, hfits, hrest⟩
  cases r with
  | pose q => exact hr.elim
  | await q token => exact hr.elim
  | _ => simp [Request.opens, Request.closes]

/-- Only questions that the search may ask go to the provider. -/
theorem asks {s : Search α} {a : α} (h : s.Plays g on log a on') {asks : Question → Prop} (hs : s.Asks asks) :
  ∀ q ∈ asked log, asks q
  := by
  induction h with
  | done => exact List.forall_mem_nil _
  | cancel h ih => exact ih hs
  | @wait on then' on' r next reply log a hkept hfits h ih =>
    have hcloses : asked (r.closes reply) = [] := by
      cases r with
      | pose q => cases reply <;> rfl
      | _ => rfl
    rw [asked_append, asked_append, asked_append, asked_strike, hcloses, List.append_nil, List.append_nil,
      List.forall_mem_append]
    refine ⟨?_, ih (hs.2 reply)⟩
    cases r with
    | pose q => exact List.forall_mem_singleton.mpr hs.1
    | _ => exact List.forall_mem_nil _

end Plays

end Search

/-! ### Searches in a workspace -/

section Workspace

variable {σ : Type}

/-- A provider that takes no cancellation back. -/
structure Provider.KeepsCancelled (p : Provider σ) : Prop where
  pose : ∀ q d t, d.searches.isCancelled t = true → (p.pose q d).2.searches.isCancelled t = true
  answer : ∀ files q token d t, d.searches.isCancelled t = true →
    (p.answer files q token d).2.searches.isCancelled t = true

namespace Workspace

theorem isCancelled_perform_of_keeps {w : Workspace σ} (hp : w.provider.KeepsCancelled) (r : Request) {t : Token}
    (ht : w.searches.isCancelled t = true) :
  (w.perform r).2.searches.isCancelled t = true
  := by
  have hrecord := (w.searches.signals.isCancelled_iff t).mp ht
  cases r with
  | pose q => exact hp.pose q ⟨w.analysis, w.searches⟩ t ht
  | await q token => exact hp.answer w.files q token ⟨w.analysis, w.searches⟩ t ht
  | _ => exact (Signals.isCancelled_iff _ t).mpr hrecord

/-- What happens while a search runs that nothing but the provider disturbs. -/
def happenings (caller : Token) : Search α → Workspace σ → List Happening
  | .done _, _ => []
  | .wait r next, w =>
    r.opens ++ Happening.strike (w.searches.isCancelled caller) ((w.perform r).2.searches.isCancelled caller) ++
      r.closes (w.perform r).1 ++ happenings caller (next (w.perform r).1) (w.perform r).2

/-- Replies fit the stage that the workspace is. -/
theorem fits_perform (w : Workspace σ) (caller : Token) (r : Request) :
  r.Fits ⟨caller, w.files, w.searchPath⟩ (w.searches.isCancelled caller) (w.perform r).1
  := by
  cases r with
  | isCancelled t =>
    intro hcaller ht
    rw [perform, Searches.isCancelled, Signals.isCancelled_iff]
    obtain ⟨u, hu, hcovers⟩ := (w.searches.signals.isCancelled_iff caller).mp hcaller
    exact ⟨u, hu, hcovers.trans ht⟩
  | enter upper => exact .inr upper.covers_self
  | files => rfl
  | searchPath => rfl
  | _ => trivial

/-- Whatever a search does in a workspace may happen. -/
theorem plays_run {w : Workspace σ} (hp : w.provider.KeepsCancelled) (caller : Token) (s : Search α) :
  s.Plays ⟨caller, w.files, w.searchPath⟩ (w.searches.isCancelled caller) (w.happenings caller s) (w.run s).1
    ((w.run s).2.searches.isCancelled caller)
  := by
  induction s generalizing w with
  | done a => exact .done _ a
  | wait r next ih =>
    have hstage : (w.perform r).2.files = w.files ∧ (w.perform r).2.searchPath = w.searchPath := by
      cases r <;> exact ⟨rfl, rfl⟩
    have hplays := ih (w.perform r).1 (w := (w.perform r).2) (by rwa [perform_provider])
    rw [hstage.1, hstage.2] at hplays
    exact .wait (isCancelled_perform_of_keeps hp r) (w.fits_perform caller r) hplays

theorem happenings_bind (caller : Token) (s : Search α) (f : α → Search β) (w : Workspace σ) :
  w.happenings caller (s >>= f) = w.happenings caller s ++ (w.run s).2.happenings caller (f (w.run s).1)
  := by
  induction s generalizing w with
  | done a => rfl
  | wait r next ih =>
    have hwait : (Search.wait r next >>= f) = Search.wait r fun reply => next reply >>= f := rfl
    rw [hwait, happenings, happenings, run_wait, ih]
    simp only [List.append_assoc]

theorem prefix_happenings_bind (caller : Token) (s : Search α) (f : α → Search β) (w : Workspace σ) :
  w.happenings caller s <+: w.happenings caller (s >>= f)
  := by
  rw [happenings_bind]
  exact List.prefix_append _ _

/-- A request that is no question and cancels nothing makes nothing happen. -/
theorem happenings_request_bind {caller : Token} {r : Request} {f : r.Reply → Search β} {w : Workspace σ}
    (hr : r.Asks fun _ => False)
    (hkept : (w.perform r).2.searches.isCancelled caller = w.searches.isCancelled caller) :
  w.happenings caller (Search.request r >>= f) = (w.perform r).2.happenings caller (f (w.perform r).1)
  := by
  have hrequest : (Search.request r >>= f) = Search.wait r f := rfl
  have hstrike (b : Bool) : Happening.strike b b = [] := by cases b <;> rfl
  rw [hrequest, happenings, hkept, hstrike]
  cases r with
  | pose q => exact hr.elim
  | await q token => exact hr.elim
  | _ => rfl

theorem happenings_checkpoint_bind {w : Workspace σ} {token : Token} (caller : Token)
    (hlive : w.searches.isCancelled token = false) (f : Unit → Finding α) :
  w.happenings caller (Finding.checkpoint token >>= f).run = w.happenings caller (f ()).run
  := by
  have hreply : (w.perform (.isCancelled token)).1 = false := hlive
  apply (happenings_request_bind (r := .isCancelled token) trivial rfl).trans
  rw [hreply]
  rfl

end Workspace

end Workspace

/-! ### Hushed and attentive searches -/

/-- A log that does not end while a question is with the provider. -/
def Closed (log : List Happening) : Prop :=
  ∀ q, log.getLast? ≠ some (.asked q)

/-- In a log the caller is cancelled while a question is with the provider; the rest of the log comes after that. -/
def Struck (log rest : List Happening) : Prop :=
  ∃ before q, log = before ++ .asked q :: .cancelled :: rest

theorem closed_of_asked {log : List Happening} (h : asked log = []) :
  Closed log
  := by
  intro q hq
  have hmem : q ∈ asked log := List.mem_filterMap.mpr ⟨_, List.mem_of_getLast? hq, rfl⟩
  rw [h] at hmem
  cases hmem

theorem Closed.append {log log' : List Happening} (h : Closed log) (h' : Closed log') :
  Closed (log ++ log')
  := by
  intro q hq
  rw [List.getLast?_append] at hq
  cases hlast : log'.getLast? with
  | none => exact h q (by rwa [hlast] at hq)
  | some x => exact h' q (by rwa [hlast] at hq ⊢)

theorem Struck.asked_ne_nil {log rest : List Happening} (h : Struck log rest) :
  asked log ≠ []
  := by
  obtain ⟨before, q, rfl⟩ := h
  rw [asked_append]
  exact List.append_ne_nil_of_right_ne_nil _ (List.cons_ne_nil q _)

theorem Struck.cancelled_mem {log rest : List Happening} (h : Struck log rest) :
  .cancelled ∈ log
  := by
  obtain ⟨before, q, rfl⟩ := h
  simp

/-- Where two logs are joined no question is with the provider. -/
theorem Struck.of_append {log log' rest : List Happening} (h : Struck (log ++ log') rest) (hclosed : Closed log) :
  (∃ between, Struck log between ∧ rest = between ++ log') ∨ Struck log' rest
  := by
  obtain ⟨before, q, heq⟩ := h
  rcases List.append_eq_append_iff.mp heq with ⟨more, rfl, rfl⟩ | ⟨more, rfl, hmore⟩
  · exact .inr ⟨more, q, rfl⟩
  · match more, hmore with
    | [], hmore => exact .inr ⟨[], q, hmore.symm⟩
    | [x], hmore =>
      cases hmore
      exact absurd List.getLast?_concat (hclosed q)
    | x :: y :: between, hmore =>
      cases hmore
      exact .inl ⟨between, ⟨before, q, rfl⟩, rfl⟩

theorem Struck.of_append_right {log log' rest : List Happening} (h : Struck (log ++ log') rest)
    (hasked : asked log = []) :
  Struck log' rest
  := by
  rcases h.of_append (closed_of_asked hasked) with ⟨between, hbetween, rfl⟩ | h
  · exact absurd hasked hbetween.asked_ne_nil
  · exact h

namespace Search

/-- A search that asks nothing once its caller is cancelled. -/
def Hushed (g : Stage) (ends : α → Prop) (s : Search α) : Prop :=
  ∀ log a on', s.Plays g true log a on' → asked log = [] ∧ ends a

/-- A search that asks nothing more when its caller is cancelled while a question is with the provider, unless the
questions it asks are of some sort. -/
def Attentive (g : Stage) (sort : List Question → Prop) (ends : α → Prop) (s : Search α) : Prop :=
  ∀ on log a on', s.Plays g on log a on' →
    Closed log ∧ ∀ rest, Struck log rest → (asked rest = [] ∨ sort (asked log)) ∧ ends a

variable {g : Stage} {sort : List Question → Prop} {ends : α → Prop} {last : β → Prop}

theorem hushed_pure {a : α} (h : ends a) :
  (pure a : Search α).Hushed g ends
  := by
  intro log b on' hplays
  obtain ⟨rfl, rfl⟩ := hplays.of_done
  exact ⟨asked_strike _ _, h⟩

theorem Hushed.imp {s : Search α} {ends' : α → Prop} (h : s.Hushed g ends) (himp : ∀ a, ends a → ends' a) :
  s.Hushed g ends'
  :=
  fun log a on' hplays => (h log a on' hplays).imp_right (himp a)

theorem Hushed.bind {s : Search α} {f : α → Search β} (h : s.Hushed g ends)
    (hf : ∀ a, ends a → (f a).Hushed g last) :
  (s >>= f).Hushed g last
  := by
  intro log b on' hplays
  obtain ⟨then', log₁, log₂, a, rfl, hfirst, hsecond⟩ := hplays.of_bind
  obtain ⟨hasked, ha⟩ := h _ _ _ hfirst
  obtain rfl := hfirst.kept (.inl rfl)
  obtain ⟨hasked', hb⟩ := hf a ha _ _ _ hsecond
  exact ⟨by rw [asked_append, hasked, hasked', List.append_nil], hb⟩

/-- A search that never asks anything. -/
abbrev Mute (s : Search α) : Prop :=
  s.Asks fun _ => False

theorem Mute.asked {s : Search α} (h : s.Mute) {on on' : Bool} {log : List Happening} {a : α}
    (hplays : s.Plays g on log a on') :
  CallGraph.asked log = []
  :=
  List.eq_nil_iff_forall_not_mem.mpr (hplays.asks h)

theorem Mute.hushed {s : Search α} (h : s.Mute) :
  s.Hushed g fun _ => True
  :=
  fun _ _ _ hplays => ⟨h.asked hplays, trivial⟩

theorem Mute.attentive {s : Search α} (h : s.Mute) :
  s.Attentive g sort ends
  := by
  intro on log a on' hplays
  have hasked := h.asked hplays
  exact ⟨closed_of_asked hasked, fun rest hstruck => absurd hasked hstruck.asked_ne_nil⟩

/-- A search that is hushed after an attentive one. -/
theorem Attentive.bind {s : Search α} {f : α → Search β} (h : s.Attentive g sort ends)
    (hf : ∀ a, (f a).Attentive g (fun _ => False) last) (hhushed : ∀ a, ends a → (f a).Hushed g last) :
  (s >>= f).Attentive g sort last
  := by
  intro on log b on' hplays
  obtain ⟨then', log₁, log₂, a, rfl, hfirst, hsecond⟩ := hplays.of_bind
  obtain ⟨hclosed, hstruck⟩ := h _ _ _ _ hfirst
  obtain ⟨hclosed', hstruck'⟩ := hf a _ _ _ _ hsecond
  refine ⟨hclosed.append hclosed', fun rest hrest => ?_⟩
  rcases hrest.of_append hclosed with ⟨between, hbetween, rfl⟩ | hrest
  · obtain ⟨hasked, ha⟩ := hstruck between hbetween
    obtain rfl := hfirst.kept (.inr hbetween.cancelled_mem)
    obtain ⟨hasked', hb⟩ := hhushed a ha _ _ _ hsecond
    rw [asked_append, asked_append, hasked', List.append_nil, List.append_nil]
    exact ⟨hasked, hb⟩
  · obtain ⟨hasked, hb⟩ := hstruck' rest hrest
    exact ⟨.inl (hasked.resolve_right id), hb⟩

/-- A search after one that asks nothing. -/
theorem Mute.bind {s : Search α} {f : α → Search β} (h : s.Mute) (hf : ∀ a, (f a).Attentive g sort last) :
  (s >>= f).Attentive g sort last
  := by
  intro on log b on' hplays
  obtain ⟨then', log₁, log₂, a, rfl, hfirst, hsecond⟩ := hplays.of_bind
  have hasked := h.asked hfirst
  obtain ⟨hclosed, hstruck⟩ := hf a _ _ _ _ hsecond
  refine ⟨(closed_of_asked hasked).append hclosed, fun rest hrest => ?_⟩
  rw [asked_append, hasked, List.nil_append]
  exact hstruck rest (hrest.of_append_right hasked)

/-! ### Searches with questions of their own -/

/-- A search that asks certain questions in any case. -/
def Poses (g : Stage) (qs : List Question) (s : Search α) : Prop :=
  ∀ on log a on', s.Plays g on log a on' → Closed log ∧ CallGraph.asked log = qs

variable {q : Question} {qs qs' : List Question}

theorem Mute.poses {s : Search α} (h : s.Mute) :
  s.Poses g []
  := by
  intro on log a on' hplays
  have hasked := h.asked hplays
  exact ⟨closed_of_asked hasked, hasked⟩

theorem Poses.bind {s : Search α} {f : α → Search β} (h : s.Poses g qs) (hf : ∀ a, (f a).Poses g qs') :
  (s >>= f).Poses g (qs ++ qs')
  := by
  intro on log b on' hplays
  obtain ⟨then', log₁, log₂, a, rfl, hfirst, hsecond⟩ := hplays.of_bind
  obtain ⟨hclosed, hasked⟩ := h _ _ _ _ hfirst
  obtain ⟨hclosed', hasked'⟩ := hf a _ _ _ _ hsecond
  exact ⟨hclosed.append hclosed', by rw [asked_append, hasked, hasked']⟩

theorem Poses.bind_mute {s : Search α} {f : α → Search β} (h : s.Poses g qs) (hf : ∀ a, (f a).Mute) :
  (s >>= f).Poses g qs
  := by
  have hbind := h.bind fun a => (hf a).poses
  rwa [List.append_nil] at hbind

theorem Poses.attentive {s : Search α} (h : s.Poses g qs) :
  s.Attentive g (· = qs) fun _ => True
  := by
  intro on log a on' hplays
  obtain ⟨hclosed, hasked⟩ := h _ _ _ _ hplays
  exact ⟨hclosed, fun _ _ => ⟨.inr hasked, trivial⟩⟩

/-- A search that asks a single question is attentive. -/
theorem Poses.attentive_of_single {s : Search α} (h : s.Poses g [q]) :
  s.Attentive g sort fun _ => True
  := by
  intro on log a on' hplays
  obtain ⟨hclosed, hq⟩ := h _ _ _ _ hplays
  refine ⟨hclosed, ?_⟩
  rintro rest ⟨before, q', rfl⟩
  refine ⟨.inl ?_, trivial⟩
  have hlength := congrArg List.length hq
  have hasked : CallGraph.asked (.asked q' :: .cancelled :: rest) = q' :: CallGraph.asked rest := rfl
  rw [asked_append, hasked, List.length_append, List.length_cons, List.length_singleton] at hlength
  exact List.eq_nil_of_length_eq_zero (by omega)

/-! ### Requests and questions -/

/-- A look at a token below the caller's shows that the caller was cancelled. -/
theorem hushed_isCancelled {t : Token} (ht : g.caller.Covers t) :
  (isCancelled t).Hushed g (· = true)
  := by
  intro log a on' hplays
  obtain ⟨before, then', reply, rest, rfl, hbefore, hfits, hrest, -⟩ := hplays.of_wait
  obtain ⟨rfl, rfl⟩ := hrest.of_done
  exact ⟨by simp [Request.opens, Request.closes], hfits (hbefore rfl) ht⟩

theorem mute_request {r : Request} (h : r.Asks fun _ => False) :
  (request r).Mute
  :=
  ⟨h, fun _ => trivial⟩

theorem poses_request_bind {r : Request} {f : r.Reply → Search β} (hr : r.Asks fun _ => False)
    (hf : ∀ before reply, r.Fits g before reply → (f reply).Poses g qs) :
  (request r >>= f).Poses g qs
  := by
  intro on log b on' hplays
  obtain ⟨before, then', reply, log₁, log₂, rfl, hasked, hfits, hrest⟩ := hplays.of_request hr
  obtain ⟨hclosed, hasked'⟩ := hf before reply hfits _ _ _ _ hrest
  exact ⟨(closed_of_asked hasked).append hclosed, by rw [asked_append, hasked, hasked', List.nil_append]⟩

theorem attentive_request_bind {r : Request} {f : r.Reply → Search β} (hr : r.Asks fun _ => False)
    (hf : ∀ before reply, r.Fits g before reply → (f reply).Attentive g sort last) :
  (request r >>= f).Attentive g sort last
  := by
  intro on log b on' hplays
  obtain ⟨before, then', reply, log₁, log₂, rfl, hasked, hfits, hrest⟩ := hplays.of_request hr
  obtain ⟨hclosed, hstruck⟩ := hf before reply hfits _ _ _ _ hrest
  refine ⟨(closed_of_asked hasked).append hclosed, fun rest hrest => ?_⟩
  rw [asked_append, hasked, List.nil_append]
  exact hstruck rest (hrest.of_append_right hasked)

/-- Asking a question asks that one. -/
theorem poses_ask (q : Question) (token : Option Token) :
  (ask q token).Poses g [q]
  := by
  have hclosed (log : List Happening) (before after : Bool) :
      Closed (log ++ .settled :: Happening.strike before after) := by
    intro q
    cases before <;> cases after <;> simp [Happening.strike]
  intro on log a on' hplays
  obtain ⟨before, then', posed, rest, rfl, -, -, hrest, -⟩ := hplays.of_wait
  cases posed with
  | error e =>
    obtain ⟨-, rfl⟩ := Plays.of_done (b := (.error e : Except ProviderError q.Answer)) hrest
    constructor
    · have hlast := hclosed (Happening.strike on before ++ .asked q :: Happening.strike before then') then' on'
      simpa [Request.opens, Request.closes] using hlast
    · simp [Request.opens, Request.closes]
  | ok _ =>
    have hwait : (Search.wait (.await q token) done).Plays g then' rest a on' := hrest
    obtain ⟨before', then'', answer, rest', rfl, -, -, hrest', -⟩ := hwait.of_wait
    obtain ⟨-, rfl⟩ := hrest'.of_done
    constructor
    · have hlast := hclosed (Happening.strike on before ++ .asked q :: (Happening.strike before then' ++
        (Happening.strike then' before' ++ Happening.strike before' then''))) then'' on'
      simpa [Request.opens, Request.closes] using hlast
    · simp [Request.opens, Request.closes]

theorem attentive_ask (q : Question) (token : Option Token) :
  (ask q token).Attentive g sort fun _ => True
  :=
  (poses_ask q token).attentive_of_single

end Search

end CallGraph
