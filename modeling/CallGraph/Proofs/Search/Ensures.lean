import CallGraph.Proofs.Signals
import CallGraph.Search.Basic

/-!
# What searches come to

A search is a tree of requests, so what it comes to is said by recursion over the tree: it `Ensures` a
property when every sequence of admissible replies ends with a result that has it.  Which replies are
admissible is fixed by a `Setting` and by the `Terms` of the search: on honest terms questions have their
answers and no token below the handle of the search is cancelled, on others anything may be replied.  A
family of searches is `Fixed` when on honest terms all of them have the same result.
-/

namespace CallGraph

/-- What searches depend on: answers that do not depend on the files searched for usages, the mode, the files
and the search path. -/
structure Setting where
  answers : (q : Question) → Except ProviderError q.Answer
  experimental : Bool
  files : FileTree
  searchPath : List Path
  answers_usages : ∀ anchor files files', answers (.usages anchor files) = answers (.usages anchor files')

/-- The handle under which a search is made, and whether its requests are replied to truthfully. -/
structure Terms where
  handle : Token
  honest : Bool

/-- A request of a search under a handle: it begins searches only below this handle. -/
def Terms.Asks (t : Terms) : Request → Prop
  | .enter caller => t.handle.Covers caller
  | _ => True

/-- The replies that may be had. -/
def Terms.Admits (t : Terms) (A : Setting) : (r : Request) → r.Reply → Prop
  | .pose q, reply => t.honest → ∀ e, reply = .error e → A.answers q = .error e
  | .await q token, reply => t.honest → (∀ u ∈ token, t.handle.Covers u) → reply = A.answers q
  | .isCancelled u, reply => t.honest → t.handle.Covers u → reply = false
  | .enter _, reply => t.handle.Covers reply
  | .searchPath, reply => t.honest → reply = A.searchPath
  | .config, reply => t.honest → reply.experimentalMode = A.experimental
  | .files, reply => t.honest → reply = A.files
  | _, _ => True

namespace Search

variable {α β ι : Type} {A : Setting} {t : Terms} {P Q : α → Prop}

/-- A search makes only requests of its terms, and ends with a property whatever is replied. -/
def Ensures (A : Setting) (t : Terms) (P : α → Prop) : Search α → Prop
  | done a => P a
  | wait r next => t.Asks r ∧ ∀ reply, t.Admits A r reply → (next reply).Ensures A t P

/-! ### Single searches -/

/-- A weaker property. -/
theorem Ensures.imp {s : Search α} (h : s.Ensures A t P) (hPQ : ∀ a, P a → Q a) :
  s.Ensures A t Q
  := by
  induction s with
  | done a => apply hPQ a h
  | wait r next ih => exact ⟨h.1, fun reply hreply => ih reply (h.2 reply hreply)⟩

/-- One search after the other. -/
theorem Ensures.bind {s : Search α} {f : α → Search β} {R : β → Prop} (h : s.Ensures A t P)
    (hf : ∀ a, P a → (f a).Ensures A t R) :
  (s >>= f).Ensures A t R
  := by
  induction s with
  | done a => apply hf a h
  | wait r next ih => exact ⟨h.1, fun reply hreply => ih reply (h.2 reply hreply)⟩

/-- A single request has an admissible reply. -/
theorem ensures_request (r : Request) (hasks : t.Asks r) :
  (request r).Ensures A t (t.Admits A r)
  :=
  ⟨hasks, fun _ hreply => hreply⟩

/-! ### Families of searches -/

/-- On honest terms all searches of a family have one and the same result. -/
def Fixed (A : Setting) (terms : ι → Terms) (s : ι → Search α) : Prop :=
  ∃ a, ∀ i, (s i).Ensures A (terms i) fun x => (terms i).honest → x = a

namespace Fixed

variable {terms : ι → Terms}

/-- A result at hand. -/
theorem pure (a : α) :
  Fixed A terms fun _ => (Pure.pure a : Search α)
  :=
  ⟨a, fun _ _ => rfl⟩

/-- One search after the other. -/
theorem bind {s : ι → Search α} {f : ι → α → Search β} (h : Fixed A terms s)
    (hf : ∀ a, Fixed A terms fun i => f i a) :
  Fixed A terms fun i => s i >>= f i
  := by
  obtain ⟨a, ha⟩ := h
  obtain ⟨b, hb⟩ := hf a
  use b
  intro i
  apply (ha i).bind
  intro x hx
  -- Off honest terms the first result is any, and so are the requests made after it.
  cases hhonest : (terms i).honest with
  | true =>
      rw [hx hhonest]
      apply (hb i).imp fun y hy _ => hy hhonest
  | false =>
      obtain ⟨y, hy⟩ := hf x
      apply (hy i).imp fun _ _ => nofun

/-- A request whose reply may differ from search to search. -/
theorem request_bind {r : ι → Request} {f : (i : ι) → (r i).Reply → Search β}
    (hasks : ∀ i, (terms i).Asks (r i))
    (hf : Fixed A (fun x : (i : ι) × { reply : (r i).Reply // (terms i).Admits A (r i) reply } => terms x.1)
      fun x => f x.1 x.2.1) :
  Fixed A terms fun i => request (r i) >>= f i
  := by
  obtain ⟨b, hb⟩ := hf
  use b
  intro i
  apply (ensures_request (r i) (hasks i)).bind fun reply hreply => hb ⟨i, reply, hreply⟩

/-- A search without a result has always the same one. -/
theorem unit {s : ι → Search Unit} (h : ∀ i, (s i).Ensures A (terms i) fun _ => True) :
  Fixed A terms s
  :=
  ⟨(), fun i => (h i).imp fun _ _ _ => rfl⟩

end Fixed

/-- Writing to the log. -/
theorem ensures_log (line : LogLine) :
  (log line).Ensures A t fun _ => True
  :=
  (ensures_request (.log line) trivial).imp fun _ _ => trivial

/-- Reporting an error. -/
theorem ensures_report (e : ProviderError) (context : String) :
  (report e context).Ensures A t fun _ => True
  := by
  rw [report]
  split
  case isTrue => apply ensures_log _
  case isFalse =>
    apply (ensures_request .config trivial).bind
    intro config _
    split
    case isTrue => apply ensures_log _
    case isFalse => apply ensures_log _

/-- A question has its answer. -/
theorem ensures_ask (q : Question) (token : Option Token) (htoken : ∀ u ∈ token, t.handle.Covers u) :
  (ask q token).Ensures A t fun x => t.honest → x = A.answers q
  := by
  apply (ensures_request (.pose q) trivial).bind
  intro reply hreply
  cases reply with
  | error e => exact fun hhonest => (hreply hhonest e rfl).symm
  | ok _ =>
      apply (ensures_request (.await q token) trivial).imp
      exact fun x hx hhonest => hx hhonest htoken

end Search

end CallGraph
