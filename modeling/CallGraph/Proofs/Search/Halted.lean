import CallGraph.Proofs.Scripted
import CallGraph.Proofs.Search.Attentive
import CallGraph.Provider.Disturbed

/-!
# Expansions that are halted

When the caller of an expansion is cancelled before it, nothing is asked.  When it is cancelled while a question is
with the provider, nothing is asked after that and there are no rows, whatever the provider: between any two
questions there is a look at the token of the search.  The members of a package are the exception.  They are resolved
one after the other without such a look, so those that are left are resolved too, although their nodes are dropped.
-/

namespace CallGraph

variable {α β : Type} {g : Stage} {sort : List Question → Prop}

/-! ### Searches that may fail -/

namespace Finding

variable {token : Token}

theorem hushed_bind {s : Finding α} {f : α → Finding β} (h : s.run.Hushed g fun _ => True)
    (hf : ∀ a, (f a).run.Hushed g fun _ => True) :
  (s >>= f).run.Hushed g fun _ => True
  := by
  apply Search.Hushed.bind h
  intro result _
  cases result with
  | ok a => exact hf a
  | error e => exact Search.hushed_pure trivial

/-- A search is hushed where it looks at a token below the caller's first. -/
theorem hushed_checkpoint (ht : g.caller.Covers token) (f : Unit → Finding α) :
  (checkpoint token >>= f).run.Hushed g (· = .error .cancelled)
  := by
  apply (Search.hushed_isCancelled ht).bind
  rintro _ rfl
  exact Search.hushed_pure rfl

theorem mute_pure (a : α) :
  (pure a : Finding α).run.Mute
  :=
  trivial

theorem mute_bind {s : Finding α} {f : α → Finding β} (h : s.run.Mute) (hf : ∀ a, (f a).run.Mute) :
  (s >>= f).run.Mute
  := by
  apply Search.Asks.bind h
  intro result
  cases result with
  | ok a => exact hf a
  | error e => trivial

theorem mute_checkpoint (token : Token) :
  (checkpoint token).run.Mute
  := by
  refine ⟨trivial, fun cancelled => ?_⟩
  cases cancelled <;> trivial

theorem mute_lift {s : Search α} (h : s.Mute) :
  (ExceptT.lift s : Finding α).run.Mute
  :=
  Search.Asks.bind h fun _ => trivial

theorem mute_report (e : ProviderError) (context : String) :
  (ExceptT.lift (Search.report e context) : Finding Unit).run.Mute
  :=
  mute_lift (Search.asks_of_heeds
    (Search.heeds_report (c := ⟨fun _ => False, fun _ => False, False⟩) e context) fun _ => id)

theorem mute_contained (result : Except ProviderError α) (default : α) (context : String) :
  (contained result default context).run.Mute
  := by
  unfold contained
  split
  · trivial
  · trivial
  · exact mute_bind (mute_report _ context) fun _ => mute_pure default

/-- A search after one that asks nothing. -/
theorem attentive_of_mute {s : Finding α} {f : α → Finding β} (h : s.run.Mute)
    (hf : ∀ a, (f a).run.Attentive g sort fun _ => True) :
  (s >>= f).run.Attentive g sort fun _ => True
  := by
  apply Search.Mute.bind h
  intro result
  cases result with
  | ok a => exact hf a
  | error e => exact Search.Mute.attentive trivial

/-- A search that is hushed after an attentive one. -/
theorem attentive_bind {s : Finding α} {f : α → Finding β} (h : s.run.Attentive g sort fun _ => True)
    (hf : ∀ a, (f a).run.Attentive g (fun _ => False) fun _ => True)
    (hhushed : ∀ a, (f a).run.Hushed g fun _ => True) :
  (s >>= f).run.Attentive g sort fun _ => True
  := by
  apply h.bind
  · intro result
    cases result with
    | ok a => exact hf a
    | error e => exact Search.Mute.attentive trivial
  · intro result _
    cases result with
    | ok a => exact hhushed a
    | error e => exact Search.hushed_pure trivial

/-- A search that asks nothing after an attentive one. -/
theorem attentive_bind_mute {s : Finding α} {f : α → Finding β} (h : s.run.Attentive g sort fun _ => True)
    (hf : ∀ a, (f a).run.Mute) :
  (s >>= f).run.Attentive g sort fun _ => True
  :=
  attentive_bind h (fun a => (hf a).attentive) fun a => (hf a).hushed

theorem attentive_lift {s : Search α} (h : s.Attentive g sort fun _ => True) {ends : Except ProviderError α → Prop}
    (hends : ∀ a, ends (.ok a)) :
  (ExceptT.lift s : Finding α).run.Attentive g sort ends
  :=
  h.bind (fun _ => Search.Mute.attentive trivial) fun a _ => Search.hushed_pure (hends a)

theorem attentive_askContained (q : Question) (token : Token) (default : q.Answer) (context : String) :
  (askContained q token default context).run.Attentive g sort fun _ => True
  :=
  attentive_bind_mute (attentive_lift (Search.attentive_ask q (some token)) fun _ => trivial) fun result =>
    mute_contained result default context

/-- A part of a search of which the rest is put together with what came before. -/
theorem hushed_append {s : Finding (List Vertex)} (first : List Vertex) (h : s.run.Hushed g fun _ => True) :
  (s >>= fun rest => pure (first ++ rest)).run.Hushed g fun _ => True
  :=
  hushed_bind h fun _ => Search.hushed_pure trivial

theorem attentive_append {s : Finding (List Vertex)} (first : List Vertex)
    (h : s.run.Attentive g sort fun _ => True) :
  (s >>= fun rest => pure (first ++ rest)).run.Attentive g sort fun _ => True
  :=
  attentive_bind_mute h fun _ => mute_pure _

/-! ### What is inside a scope -/

section Covered

variable (ht : g.caller.Covers token)

include ht

theorem hushed_sitesVertices (sites : List CallSite) :
  (sitesVertices token sites).run.Hushed g fun _ => True
  := by
  cases sites with
  | nil => exact Search.hushed_pure trivial
  | cons site sites => exact (hushed_checkpoint ht _).imp fun _ _ => trivial

theorem attentive_sitesVertices (sites : List CallSite) :
  (sitesVertices token sites).run.Attentive g sort fun _ => True
  := by
  induction sites generalizing sort with
  | nil => exact (mute_pure _).attentive
  | cons site sites ih =>
    apply attentive_of_mute (mute_checkpoint token) fun _ => ?_
    apply attentive_bind (attentive_askContained _ _ _ _)
    · exact fun targets => attentive_append _ ih
    · exact fun targets => hushed_append _ (hushed_sitesVertices ht sites)

theorem attentive_callSiteVertices (scope : Definition) :
  (callSiteVertices scope token).run.Attentive g sort fun _ => True
  :=
  attentive_bind (Search.attentive_ask (.callSites scope) (some token)) (attentive_sitesVertices ht)
    (hushed_sitesVertices ht)

theorem attentive_scopeNameVertices (scope : Definition) :
  (scopeNameVertices scope token).run.Attentive g sort fun _ => True
  := by
  apply attentive_bind (Search.attentive_ask (.scopeNames scope) (some token))
  · exact fun names => attentive_of_mute (mute_checkpoint token) fun _ => (mute_pure _).attentive
  · exact fun names => (hushed_checkpoint ht _).imp fun _ _ => trivial

/-! ### What uses a symbol -/

omit ht in
theorem attentive_enclosing? (u : Usage) :
  (enclosing? u).run.Attentive g sort fun _ => True
  := by
  apply attentive_bind_mute (attentive_lift (Search.attentive_ask (.enclosing u) none) fun _ => trivial)
  intro result
  split
  · trivial
  · trivial
  · exact mute_bind (mute_report _ _) fun _ => mute_pure none

omit ht in
theorem mute_parentIn? (v : Vertex) (u : Usage) (d : Definition) :
  (parentIn? v u d).run.Mute
  := by
  dsimp only [parentIn?]
  split
  · exact mute_bind (mute_lift (Search.mute_request trivial)) fun _ => mute_pure none
  · trivial

omit ht in
theorem attentive_parentAt? (v : Vertex) (u : Usage) :
  (parentAt? v u).run.Attentive g sort fun _ => True
  := by
  apply attentive_bind_mute (attentive_enclosing? u)
  intro found
  split
  · trivial
  · rename_i d
    cases d.path with
    | none => exact mute_parentIn? v u d
    | some file =>
      exact mute_bind (mute_lift (Search.mute_request (by trivial))) fun _ => mute_parentIn? v u d

theorem hushed_parentsAt (v : Vertex) (seen : List CallPosition) (usages : List Usage) :
  (parentsAt v token seen usages).run.Hushed g fun _ => True
  := by
  cases usages with
  | nil => exact Search.hushed_pure trivial
  | cons u us => exact (hushed_checkpoint ht _).imp fun _ _ => trivial

theorem attentive_parentsAt (v : Vertex) (seen : List CallPosition) (usages : List Usage) :
  (parentsAt v token seen usages).run.Attentive g sort fun _ => True
  := by
  induction usages generalizing sort seen with
  | nil => exact (mute_pure _).attentive
  | cons u us ih =>
    apply attentive_of_mute (mute_checkpoint token) fun _ => ?_
    split
    · exact ih seen
    · apply attentive_bind (attentive_parentAt? v u)
      · exact fun parent => attentive_append _ (ih _)
      · exact fun parent => hushed_append _ (hushed_parentsAt ht v _ us)

theorem attentive_parents (v : Vertex) :
  (parents v token).run.Attentive g sort fun _ => True
  := by
  unfold parents
  apply attentive_of_mute (mute_checkpoint token) fun _ => ?_
  apply attentive_of_mute (mute_lift (Search.mute_request (by trivial))) fun files => ?_
  split
  · exact (mute_pure _).attentive
  · apply attentive_bind (attentive_askContained _ _ _ _)
    · exact fun usages => attentive_of_mute (mute_checkpoint token) fun _ => attentive_parentsAt ht v _ _
    · exact fun usages => (hushed_checkpoint ht _).imp fun _ _ => trivial

end Covered

end Finding

/-! ### Members of packages -/

/-- The questions for the members of a vertex that is a package. -/
def Vertex.memberQuestions (g : Stage) (v : Vertex) : List Question :=
  match v.packageMarker?.bind Path.parent? with
  | none => []
  | some directory => (g.files.modulesIn g.searchPath directory).map (.resolve · g.searchPath)

namespace Search

theorem poses_moduleVertex (searchPath : List Path) (name : String) :
  (moduleVertex searchPath name).Poses g [.resolve name searchPath]
  := by
  apply (poses_ask (.resolve name searchPath) none).bind_mute
  intro result
  split
  · trivial
  · trivial
  · rename_i d
    cases d.path with
    | none => trivial
    | some file => exact ⟨trivial, fun _ => trivial⟩

/-- Every module name is resolved, whatever happens meanwhile. -/
theorem poses_moduleVertices (searchPath : List Path) (names : List String) :
  (moduleVertices searchPath names).Poses g (names.map (.resolve · searchPath))
  := by
  induction names with
  | nil => exact Mute.poses trivial
  | cons name names ih =>
    apply (poses_moduleVertex searchPath name).bind
    intro first
    apply ih.bind_mute
    intro rest
    split <;> trivial

theorem poses_memberVertices (marker : Path) (package : String) :
  (memberVertices marker package).Poses g (match marker.parent? with
    | none => []
    | some directory => (g.files.modulesIn g.searchPath directory).map (.resolve · g.searchPath))
  := by
  unfold memberVertices
  cases marker.parent? with
  | none => exact Mute.poses trivial
  | some directory =>
    apply poses_request_bind (r := .searchPath) trivial
    rintro _ _ rfl
    apply poses_request_bind (r := .files) trivial
    rintro _ _ rfl
    dsimp only
    rw [FileTree.modulesIn]
    cases PackageMembers.list g.files directory with
    | error e => exact Mute.poses ⟨trivial, fun _ => trivial⟩
    | ok members =>
      dsimp only
      cases members.warning? package with
      | none => exact poses_moduleVertices _ _
      | some warning => exact poses_request_bind (r := .log warning) trivial fun _ _ _ => poses_moduleVertices _ _

end Search

namespace Finding

variable {token : Token} (ht : g.caller.Covers token)

include ht

/-- All members of a package are resolved, and then they are dropped. -/
theorem attentive_memberVertices (v : Vertex) :
  (memberVertices v token).run.Attentive g (· = v.memberQuestions g) (· = .error .cancelled)
  := by
  unfold memberVertices Vertex.memberQuestions
  cases v.packageMarker? with
  | none => exact (mute_pure _).attentive
  | some marker =>
    have hlift {qs : List Question} {s : Search (List Vertex)} (h : s.Poses g qs) :
        (ExceptT.lift s : Finding (List Vertex)).run.Attentive g (· = qs) fun result => ∃ vs, result = .ok vs :=
      attentive_lift h.attentive fun vs => ⟨vs, rfl⟩
    apply (hlift (Search.poses_memberVertices marker v.element.name)).bind
    · rintro (e | members)
      · exact Search.Mute.attentive trivial
      · exact (mute_bind (mute_checkpoint token) fun _ => mute_pure _).attentive
    · rintro _ ⟨members, rfl⟩
      exact hushed_checkpoint ht _

theorem attentive_insideVertices (scope : Definition) (members : List Vertex) :
  (insideVertices scope token members).run.Attentive g sort fun _ => True
  := by
  apply attentive_of_mute (mute_lift (Search.mute_request (r := .config) trivial))
  intro config
  dsimp only
  split
  · exact attentive_append members (attentive_scopeNameVertices ht scope)
  · exact attentive_append members (attentive_callSiteVertices ht scope)

theorem attentive_children (v : Vertex) :
  (children v token).run.Attentive g (· = v.memberQuestions g) fun _ => True
  := by
  cases hd : v.definition with
  | none =>
    unfold children
    rw [hd]
    exact (mute_pure _).attentive
  | some d =>
    rw [children_eq hd]
    apply attentive_of_mute (mute_checkpoint token) fun _ => ?_
    apply (attentive_memberVertices ht v).bind
    · rintro (e | members)
      · exact Search.Mute.attentive trivial
      · exact attentive_insideVertices ht d members
    · rintro _ rfl
      exact Search.hushed_pure trivial

end Finding

/-! ### Expansions -/

namespace Search

/-- A search for neighbours is attentive if the search proper is so under every token below the caller's. -/
theorem attentive_neighbours (context : String) {find : Token → Finding (List Vertex)}
    (hfind : ∀ t, g.caller.Covers t → (find t).run.Attentive g sort fun _ => True) :
  (neighbours g.caller context find).Attentive g sort fun _ => True
  := by
  apply attentive_request_bind (r := .enter g.caller) trivial
  intro _ search hsearch
  apply (hfind search hsearch).bind
  · exact fun result => Mute.attentive (asks_closing search context result)
  · exact fun result _ => Mute.hushed (asks_closing search context result)

/-- A search that gives nothing where a look at the caller's token shows that it is cancelled. -/
theorem hushed_look (rest : Search (List α)) :
  (isCancelled g.caller >>= fun cancelled => if cancelled then pure [] else rest).Hushed g (· = [])
  := by
  apply (hushed_isCancelled g.caller.covers_self).bind
  rintro _ rfl
  exact hushed_pure rfl

theorem attentive_look {rest : Search (List α)} (h : rest.Attentive g sort (· = [])) :
  (isCancelled g.caller >>= fun cancelled => if cancelled then pure [] else rest).Attentive g sort (· = [])
  := by
  apply Mute.bind (mute_request (r := .isCancelled g.caller) trivial)
  intro cancelled
  cases cancelled with
  | true => exact Mute.attentive trivial
  | false => exact h

theorem mute_nodes (vs : List Vertex) :
  (nodes vs).Mute
  := by
  induction vs with
  | nil => trivial
  | cons v vs ih =>
    have hnode : (node v).Asks fun _ => False := ⟨trivial, fun _ => trivial⟩
    exact hnode.bind fun _ => Asks.bind ih fun _ => trivial

end Search

namespace Vertex

theorem hushed_next (v : Vertex) :
  (v.next g.caller).Hushed g (· = [])
  := by
  unfold next
  split
  · exact Search.hushed_pure rfl
  · exact Search.hushed_look _

/-- An expansion looks at the caller's token after the children and after the parents. -/
theorem attentive_next (v : Vertex) :
  (v.next g.caller).Attentive g (· = v.memberQuestions g) (· = [])
  := by
  unfold next
  split
  · exact Search.Mute.attentive trivial
  · apply Search.attentive_look
    apply (Search.attentive_neighbours _ fun t ht => Finding.attentive_children ht v).bind
    · intro children
      apply Search.attentive_look
      apply (Search.attentive_neighbours _ fun t ht => Finding.attentive_parents ht v).bind
      · exact fun parents => Search.attentive_look (Search.Mute.attentive trivial)
      · exact fun parents _ => Search.hushed_look _
    · exact fun children _ => Search.hushed_look _

end Vertex

namespace Node

/-- The questions for the members of a node that is a package. -/
def memberQuestions (g : Stage) : Node → List Question
  | analyzed _ v => v.memberQuestions g
  | organizer _ _ _ _ => []

theorem hushed_next (n : Node) :
  (n.next g.caller).Hushed g (· = [])
  := by
  cases n with
  | analyzed number v =>
    apply v.hushed_next.bind
    rintro _ rfl
    exact Search.hushed_pure rfl
  | organizer number element parents children =>
    rw [next]
    split
    · exact Search.hushed_pure rfl
    · exact Search.hushed_look _

theorem attentive_next (n : Node) :
  (n.next g.caller).Attentive g (· = n.memberQuestions g) (· = [])
  := by
  cases n with
  | analyzed number v =>
    apply v.attentive_next.bind
    · exact fun vs => Search.Mute.attentive (Search.mute_nodes vs)
    · rintro _ rfl
      exact Search.hushed_pure rfl
  | organizer number element parents children =>
    rw [next]
    split
    · exact Search.Mute.attentive trivial
    · exact Search.attentive_look (Search.Mute.attentive trivial)

/-- An expansion whose caller is cancelled before it asks nothing.  One whose caller is cancelled while a question is
with the provider has no rows, and asks nothing after that question but the rest of the questions for the members of
a package. -/
theorem next_halted {n : Node} {on on' : Bool} {log : List Happening} {rows : List Node}
    (h : (n.next g.caller).Plays g on log rows on') :
  (on = true → asked log = [] ∧ rows = []) ∧
  ∀ before q rest, log = before ++ .asked q :: .cancelled :: rest →
    rows = [] ∧ (asked rest = [] ∨ asked before ++ q :: asked rest = n.memberQuestions g)
  := by
  constructor
  · rintro rfl
    exact n.hushed_next _ _ _ h
  · rintro before q rest rfl
    obtain ⟨hrest, hrows⟩ := (n.attentive_next _ _ _ _ h).2 rest ⟨before, q, rfl⟩
    rw [asked_append] at hrest
    exact ⟨hrows, hrest⟩

end Node

/-! ### Packages whose members are resolved in any case -/

section Members

variable {σ : Type} {w : Workspace σ} {marker directory : Path} {m : PackageMembers}

theorem Workspace.happenings_memberVertices (caller : Token) {package : String}
    (hparent : marker.parent? = some directory) (hlist : PackageMembers.list w.files directory = .ok m)
    (hwarning : m.warning? package = none) :
  w.happenings caller (Search.memberVertices marker package) =
    w.happenings caller (Search.moduleVertices w.searchPath (w.files.modulesIn w.searchPath directory))
  := by
  rw [Search.memberVertices, hparent, FileTree.modulesIn, hlist]
  dsimp only
  rw [happenings_request_bind (r := .searchPath) trivial rfl, happenings_request_bind (r := .files) trivial rfl]
  dsimp only [perform]
  rw [hlist]
  dsimp only
  rw [hwarning]

/-- The expansion of a package for a caller that is not cancelled before begins with the members, whoever is cancelled
meanwhile. -/
theorem Workspace.prefix_happenings_next {caller : Token} {v : Vertex} {d : Definition}
    (hcaller : w.searches.isCancelled caller = false)
    (hsearch : (w.searches.enter caller).2.isCancelled (w.searches.enter caller).1 = false)
    (hrole : v.element.role ≠ .signature) (hd : v.definition = some d) (hmarker : v.packageMarker? = some marker)
    (hparent : marker.parent? = some directory) (hlist : PackageMembers.list w.files directory = .ok m)
    (hwarning : m.warning? v.element.name = none) :
  (w.perform (.enter caller)).2.happenings caller
      (Search.moduleVertices w.searchPath (w.files.modulesIn w.searchPath directory)) <+:
    w.happenings caller (v.next caller)
  := by
  have hlook : w.perform (.isCancelled caller) = (false, w) := Prod.ext hcaller rfl
  have hkept : (w.perform (.enter caller)).2.searches.isCancelled caller = w.searches.isCancelled caller :=
    Signals.isCancelled_congr (by rfl) caller
  rw [Vertex.next, if_neg hrole]
  dsimp only
  rw [Search.isCancelled, happenings_request_bind (r := .isCancelled caller) trivial rfl, hlook]
  dsimp only
  rw [if_neg Bool.false_ne_true]
  refine List.IsPrefix.trans ?_ (prefix_happenings_bind caller (v.children caller) _ _)
  rw [Vertex.children, Search.neighbours, happenings_request_bind (r := .enter caller) trivial hkept]
  refine List.IsPrefix.trans ?_ (prefix_happenings_bind caller _ _ _)
  rw [Finding.children_eq hd, happenings_checkpoint_bind caller hsearch]
  refine List.IsPrefix.trans ?_ (prefix_happenings_bind caller (Finding.memberVertices v _).run _ _)
  unfold Finding.memberVertices
  rw [hmarker]
  have hmembers := happenings_memberVertices (w := (w.perform (.enter caller)).2) caller hparent hlist hwarning
  apply List.IsPrefix.trans _ (prefix_happenings_bind caller (ExceptT.lift _ : Finding (List Vertex)).run _ _)
  apply List.IsPrefix.trans _ (prefix_happenings_bind caller (Search.memberVertices marker v.element.name) _ _)
  rw [hmembers]
  exact List.prefix_rfl

end Members

/-! ### A caller that is cancelled while a member is resolved -/

namespace Disturbed

variable {σ : Type}

theorem isCancelled_strike {searches : Searches} {t : Token} (m : Mishap) (ht : searches.isCancelled t = true) :
  (strike m searches).isCancelled t = true
  := by
  cases m with
  | cancelToken token => exact (searches.isCancelled_cancel token t).mpr (.inr ht)
  | cancelSearches => exact (searches.isCancelled_cancelAll t).mpr (.inr ht)
  | refuse e => exact ht

theorem isCancelled_struck {searches : Searches} {t : Token} (mishap : Option Mishap)
    (ht : searches.isCancelled t = true) :
  (mishap.elim searches fun m => strike m searches).isCancelled t = true
  := by
  cases mishap with
  | none => exact ht
  | some m => exact isCancelled_strike m ht

theorem isCancelled_settle {d : Provider.Desk (Disturbed σ)} {t : Token} (ht : d.searches.isCancelled t = true) :
  (settle d).searches.isCancelled t = true
  := by
  unfold settle
  split
  · split
    · exact isCancelled_strike _ ht
    · exact ht
  · exact ht

/-- Disturbances take no cancellation back. -/
theorem provider_keepsCancelled {p : Provider σ} (hp : p.KeepsCancelled) :
  (provider p).KeepsCancelled
  := by
  constructor
  · intro q d t ht
    have hposed {u : Provider.Desk (Disturbed σ)} {posed : Except ProviderError Unit × Provider.Desk (Disturbed σ)}
        (heq : within (p.pose q) u = posed) (hu : u.searches.isCancelled t = true) :
        posed.2.searches.isCancelled t = true :=
      heq ▸ hp.pose q ⟨u.state.inner, u.searches⟩ t hu
    dsimp only [provider]
    split
    · exact ht
    · rename_i mishap x _ _
      have hstruck := isCancelled_struck mishap ht
      cases mishap
      all_goals
        split
        · rename_i heq
          exact hposed heq hstruck
        · rename_i heq
          exact isCancelled_settle (hposed heq hstruck)
  · intro files q token d t ht
    exact isCancelled_settle (hp.answer files q token ⟨d.state.inner, d.searches⟩ t ht)

end Disturbed

theorem Scripted.provider_keepsCancelled :
  Scripted.provider.KeepsCancelled
  where
  pose q d _ ht := by rwa [searches_pose]
  answer files q token d _ ht := by rwa [searches_answer]

/-- A package with two modules. -/
def pairedFiles : FileTree where
  entries := [(["w"], .directory), (["w", "pkg"], .directory), (["w", "pkg", "__init__.py"], .file .empty 1),
    (["w", "pkg", "a.py"], .file .empty 2), (["w", "pkg", "b.py"], .file .empty 3)]

/-- A workspace in which a caller is cancelled while the first module is resolved. -/
def cutShort : Workspace (Disturbed Scripted) where
  provider := Disturbed.provider Scripted.provider
  analysis :=
    { inner := {}
      disturbance := some
        { mishap := .cancelToken (.root 0)
          isMeant := fun
            | .resolve name _ => name == "pkg.a"
            | _ => false } }
  files := pairedFiles
  config := {}
  searchPath := [⟨"/w"⟩]

/-- The package. -/
def pairedPackage : Vertex :=
  .ofDefinition .definition ⟨some ⟨"/w/pkg/__init__.py"⟩, .known 1 0, .unknown⟩
    ⟨"pkg", Kind.moduleKind, "pkg", some ⟨"/w/pkg/__init__.py"⟩, .known 1 0, .unknown⟩

theorem list_pairedFiles :
  PackageMembers.list pairedFiles ⟨"/w/pkg"⟩ = .ok { files := [⟨"/w/pkg/a.py"⟩, ⟨"/w/pkg/b.py"⟩] }
  := by
  have hlist : pairedFiles.list ⟨"/w/pkg"⟩ = .ok ["__init__.py", "a.py", "b.py"] := by
    have hordered : ["__init__.py", "a.py", "b.py"].Pairwise fun a b => (!decide (b < a)) = true := by decide
    exact congrArg Except.ok (List.mergeSort_of_pairwise hordered)
  rw [PackageMembers.list, hlist]
  rfl

theorem modulesIn_pairedFiles :
  pairedFiles.modulesIn [⟨"/w"⟩] ⟨"/w/pkg"⟩ = ["pkg.a", "pkg.b"]
  := by
  rw [FileTree.modulesIn, list_pairedFiles]
  decide +kernel

/-- The second module is resolved all the same. -/
theorem prefix_happenings_cutShort :
  [.asked (.resolve "pkg.a" [⟨"/w"⟩]), .cancelled, .settled, .asked (.resolve "pkg.b" [⟨"/w"⟩]), .settled] <+:
    cutShort.happenings (.root 0) ((Node.analyzed 0 pairedPackage).next (.root 0))
  := by
  have hparent : (⟨"/w/pkg/__init__.py"⟩ : Path).parent? = some ⟨"/w/pkg"⟩ := rfl
  have hnames : cutShort.files.modulesIn cutShort.searchPath ⟨"/w/pkg"⟩ = ["pkg.a", "pkg.b"] := modulesIn_pairedFiles
  have hmembers :
      (cutShort.perform (.enter (.root 0))).2.happenings (.root 0)
          (Search.moduleVertices cutShort.searchPath (cutShort.files.modulesIn cutShort.searchPath ⟨"/w/pkg"⟩)) <+:
        cutShort.happenings (.root 0) (pairedPackage.next (.root 0)) :=
    Workspace.prefix_happenings_next (by decide) (by decide) (by decide) rfl rfl hparent list_pairedFiles rfl
  rw [hnames] at hmembers
  exact hmembers.trans (Workspace.prefix_happenings_bind _ _ _ _)

namespace Node

/-- A cancellation while the first member of a package is resolved leaves no rows, and the second is resolved. -/
theorem next_halted_cutShort :
  (cutShort.run ((analyzed 0 pairedPackage).next (.root 0))).1 = [] ∧
    asked (cutShort.happenings (.root 0) ((analyzed 0 pairedPackage).next (.root 0))) =
      [.resolve "pkg.a" [⟨"/w"⟩], .resolve "pkg.b" [⟨"/w"⟩]]
  := by
  have hplays := Workspace.plays_run (w := cutShort)
    (Disturbed.provider_keepsCancelled Scripted.provider_keepsCancelled) (.root 0)
    ((analyzed 0 pairedPackage).next (.root 0))
  obtain ⟨rest, hrest⟩ := prefix_happenings_cutShort
  rw [← hrest] at hplays ⊢
  obtain ⟨hrows, hasked | hasked⟩ := (next_halted hplays).2 [] _ _ rfl
  · cases hasked
  · refine ⟨hrows, hasked.trans ?_⟩
    have hquestions : (analyzed 0 pairedPackage).memberQuestions ⟨.root 0, cutShort.files, cutShort.searchPath⟩ =
        (pairedFiles.modulesIn [⟨"/w"⟩] ⟨"/w/pkg"⟩).map (.resolve · [⟨"/w"⟩]) := rfl
    rw [hquestions, modulesIn_pairedFiles]
    rfl

/-- So a cancellation while a question is with the provider does not always keep questions away from it. -/
theorem not_hushed_cutShort :
  ∃ before q rest, cutShort.happenings (.root 0) ((analyzed 0 pairedPackage).next (.root 0)) =
      before ++ .asked q :: .cancelled :: rest ∧ asked rest ≠ []
  := by
  obtain ⟨rest, hrest⟩ := prefix_happenings_cutShort
  exact ⟨[], _, _, hrest.symm, List.cons_ne_nil _ _⟩

end Node

end CallGraph
