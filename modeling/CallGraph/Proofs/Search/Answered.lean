import CallGraph.Proofs.Search.Indexed
import CallGraph.Proofs.Source.Served
import CallGraph.Search.Neighbours

/-!
# Searches that are answered

Over files that can all be read a search for neighbours of a sound vertex asks only about what was handed out,
and only on behalf of tokens that were seen not to be cancelled.  So in a workspace whose provider answers from
an index every question it asks is answered, and the vertices it finds are sound in turn.
-/

namespace CallGraph

open Source

/-- The usages that count for an anchor are among those found. -/
theorem allReadable_counted {files : FileTree} {anchor : Anchor} {us : List Usage} (h : AllReadable files us) :
  AllReadable files (anchor.counted us)
  := by
  cases anchor with
  | importProbe name => exact fun u hu => h u (List.mem_of_mem_filter hu)
  | definition d => exact h
  | callSite position name => exact h

variable [Parser]

/-! ### Sound vertices -/

/-- A vertex whose definition is found again, and which is shown at places in files that can be read. -/
structure Vertex.IsSound (files : FileTree) (v : Vertex) : Prop where
  definition : ∀ d, v.definition = some d → d.IsFound files
  path : IsReadable files v.element.path
  callPosition : IsReadable files v.element.callPosition.path

/-- Nodes of sound vertices, and organizers of such nodes. -/
inductive Node.IsSound (files : FileTree) : Node → Prop where
  | analyzed {number : Nat} {v : Vertex} (h : v.IsSound files) : IsSound files (.analyzed number v)
  | organizer {number : Nat} {element : Element} {parents children : List Node}
      (hparents : ∀ n ∈ parents, IsSound files n) (hchildren : ∀ n ∈ children, IsSound files n) :
      IsSound files (.organizer number element parents children)

variable {files : FileTree}

/-- The file of a definition that is found can be read. -/
theorem Definition.IsFound.isReadable {d : Definition} (h : d.IsFound files) :
  IsReadable files d.path
  := by
  intro p hp
  obtain ⟨o, ho, _⟩ := h p hp
  exact readable_of_outlineNow ho

theorem Vertex.IsSound.ofDefinition {role : Role} {position : CallPosition} {d : Definition}
    (hd : d.IsFound files) (hposition : IsReadable files position.path) :
  (Vertex.ofDefinition role position d).IsSound files
  := by
  refine ⟨?_, hd.isReadable, hposition⟩
  rintro _ ⟨⟩
  exact hd

theorem Vertex.IsSound.signature {v leaf : Vertex} (h : v.IsSound files) (hleaf : v.signature? = some leaf) :
  leaf.IsSound files
  := by
  unfold Vertex.signature? at hleaf
  split at hleaf
  · cases hleaf
  · cases hleaf
    exact ⟨h.definition, h.path, h.path⟩

/-- The vertices of a call site that was handed out, with its targets, are sound. -/
theorem isSound_of_mem_siteVertices {site : CallSite} (hsite : IsReadable files site.path)
    {targets : List Definition} (htargets : AllFound files targets) :
  ∀ v ∈ siteVertices site targets, v.IsSound files
  := by
  have htarget (index : Nat) (seen : List (String × CallPosition)) :
      ∀ v ∈ targetVertices site index seen targets, v.IsSound files := by
    induction targets generalizing index seen with
    | nil => exact List.forall_mem_nil _
    | cons target rest ih =>
      rw [AllFound, List.forall_mem_cons] at htargets
      have hrest := ih htargets.2
      unfold targetVertices
      split
      · exact hrest _ _
      · dsimp only
        split
        · exact hrest _ _
        · refine List.forall_mem_cons.mpr ⟨⟨?_, htargets.1.isReadable, hsite⟩, hrest _ _⟩
          rintro _ ⟨⟩
          exact htargets.1
  unfold siteVertices
  split
  · refine List.forall_mem_singleton.mpr ⟨by rintro _ ⟨⟩, by rintro _ ⟨⟩, hsite⟩
  · exact htarget 0 []

/-! ### What is asked -/

namespace Request

/-- A request that is no question, or one about what was handed out for a token that is not cancelled. -/
def IsFit (files : FileTree) (Live : Token → Prop) : Request → Prop
  | .await q token => q.IsFit files ∧ ∀ t ∈ token, Live t
  | _ => True

/-- The replies that may be had: answers hand out what can be asked about, what is said not to be cancelled is
not, and the mode is not the experimental one. -/
def Grants (files : FileTree) (Live : Token → Prop) : (r : Request) → r.Reply → Prop
  | .await q _, reply => ∀ a, reply = .ok a → q.Serves files a
  | .isCancelled t, reply => reply = false → Live t
  | .config, reply => reply.experimentalMode = false
  | _, _ => True

end Request

variable {Live : Token → Prop}

/-- A search makes only fit requests, and ends with a property, whatever it is granted. -/
def Search.Keeps {α : Type} (files : FileTree) (Live : Token → Prop) (P : α → Prop) : Search α → Prop
  | .done a => P a
  | .wait r next => r.IsFit files Live ∧ ∀ reply, r.Grants files Live reply → (next reply).Keeps files Live P

namespace Search

variable {α β : Type} {P Q : α → Prop} {R : β → Prop}

theorem Keeps.imp {s : Search α} (h : s.Keeps files Live P) (hPQ : ∀ a, P a → Q a) :
  s.Keeps files Live Q
  := by
  induction s with
  | done a => exact hPQ a h
  | wait r next ih => exact ⟨h.1, fun reply hreply => ih reply (h.2 reply hreply)⟩

theorem Keeps.bind {s : Search α} {f : α → Search β} (h : s.Keeps files Live P)
    (hf : ∀ a, P a → (f a).Keeps files Live R) :
  (s >>= f).Keeps files Live R
  := by
  induction s with
  | done a => exact hf a h
  | wait r next ih => exact ⟨h.1, fun reply hreply => ih reply (h.2 reply hreply)⟩

theorem keeps_request (r : Request) (hr : r.IsFit files Live) :
  (request r).Keeps files Live (r.Grants files Live)
  :=
  ⟨hr, fun _ hreply => hreply⟩

theorem keeps_log (line : LogLine) :
  (log line).Keeps files Live fun _ => True
  :=
  ⟨trivial, fun _ _ => trivial⟩

theorem keeps_report (e : ProviderError) (context : String) :
  (report e context).Keeps files Live fun _ => True
  := by
  unfold report
  split
  · exact keeps_log _
  · apply (keeps_request .config trivial).bind
    intro config _
    split
    · exact keeps_log _
    · exact keeps_log _

/-- A question about what was handed out. -/
theorem keeps_ask {q : Question} (hq : q.IsFit files) {token : Option Token} (htoken : ∀ t ∈ token, Live t) :
  (ask q token).Keeps files Live fun r => ∀ a, r = .ok a → q.Serves files a
  := by
  apply (keeps_request (.pose q) trivial).bind
  intro reply _
  cases reply with
  | error e => exact nofun
  | ok _ => exact keeps_request (.await q token) ⟨hq, htoken⟩

end Search

/-- A search that may fail keeps to fit requests, and has a property if it ends with a result. -/
def Finding.Keeps {α : Type} (files : FileTree) (Live : Token → Prop) (P : α → Prop) (s : Finding α) : Prop :=
  s.run.Keeps files Live fun r => ∀ a, r = .ok a → P a

namespace Finding

variable {α β : Type} {P Q : α → Prop} {R : β → Prop} {token : Token}

theorem Keeps.pure {a : α} (h : P a) :
  Finding.Keeps files Live P (Pure.pure a)
  := by
  rintro _ ⟨⟩
  exact h

theorem keeps_throw (e : ProviderError) :
  Finding.Keeps files Live P (throw e)
  :=
  nofun

theorem Keeps.bind {s : Finding α} {f : α → Finding β} (h : s.Keeps files Live P)
    (hf : ∀ a, P a → (f a).Keeps files Live R) :
  (s >>= f).Keeps files Live R
  := by
  apply Search.Keeps.bind h
  intro r hr
  cases r with
  | ok a => exact hf a (hr a rfl)
  | error e => exact nofun

theorem keeps_lift {s : Search α} (h : s.Keeps files Live P) :
  Finding.Keeps files Live P (ExceptT.lift s)
  := by
  apply Search.Keeps.bind h
  rintro a ha _ ⟨⟩
  exact ha

/-- Behind a checkpoint the token is known not to be cancelled. -/
theorem keeps_checkpoint :
  (checkpoint token).Keeps files Live fun _ => Live token
  := by
  apply (keeps_lift (Search.keeps_request (.isCancelled token) trivial)).bind
  intro cancelled hcancelled
  cases cancelled with
  | false => exact .pure (hcancelled rfl)
  | true => exact keeps_throw _

theorem keeps_contained {result : Except ProviderError α} (hresult : ∀ a, result = .ok a → P a) {default : α}
    (hdefault : P default) (context : String) :
  (contained result default context).Keeps files Live P
  := by
  cases result with
  | ok a => exact .pure (hresult a rfl)
  | error e =>
    cases e with
    | cancelled => exact keeps_throw _
    | failed | notFound | unparsable | outside =>
      exact (keeps_lift (Search.keeps_report _ context)).bind fun _ _ => .pure hdefault

theorem keeps_askContained {q : Question} (hq : q.IsFit files) (htoken : Live token) {default : q.Answer}
    (hdefault : q.Serves files default) (context : String) :
  (askContained q token default context).Keeps files Live (q.Serves files)
  := by
  apply (keeps_lift (Search.keeps_ask hq (by rintro _ ⟨⟩; exact htoken))).bind
  exact fun result hresult => keeps_contained hresult hdefault context

/-! ### Children -/

/-- Vertices that are all sound. -/
def AllSound (files : FileTree) (vs : List Vertex) : Prop :=
  ∀ v ∈ vs, v.IsSound files

theorem AllSound.nil :
  AllSound files []
  :=
  List.forall_mem_nil _

theorem AllSound.append {vs vs' : List Vertex} (h : AllSound files vs) (h' : AllSound files vs') :
  AllSound files (vs ++ vs')
  :=
  List.forall_mem_append.mpr ⟨h, h'⟩

theorem keeps_moduleVertex (searchPath : List Path) (name : String) :
  (Search.moduleVertex searchPath name).Keeps files Live fun r => ∀ v, r = .ok v → v.IsSound files
  := by
  apply (Search.keeps_ask (q := .resolve name searchPath) trivial nofun).bind
  intro result hresult
  have hfailed (e : ResolutionError) : (Pure.pure (.error e) : Search (Except ResolutionError Vertex)).Keeps files
      Live fun r => ∀ v, r = .ok v → v.IsSound files := by
    rintro _ ⟨⟩
  cases result with
  | error e => exact hfailed (.refused name e)
  | ok found =>
    cases found with
    | none => exact hfailed (.unknownModule name)
    | some d =>
      have hd : d.IsFound files := hresult _ rfl d rfl
      have hv : ∀ v : Vertex, Except.ok (ε := ResolutionError)
          (Vertex.ofDefinition .definition ⟨d.path, .known 1 0, .unknown⟩ d) = .ok v → v.IsSound files := by
        rintro _ ⟨⟩
        exact .ofDefinition hd hd.isReadable
      dsimp only
      split
      · rename_i file _
        exact (Search.keeps_request (.widen file) trivial).bind fun _ _ => hv
      · exact hv

theorem keeps_moduleVertices (searchPath : List Path) (names : List String) :
  (Search.moduleVertices searchPath names).Keeps files Live (AllSound files)
  := by
  induction names with
  | nil => exact .nil
  | cons name names ih =>
    apply (keeps_moduleVertex searchPath name).bind
    intro first hfirst
    apply ih.bind
    intro rest hrest
    cases first with
    | error e => exact hrest
    | ok v => exact List.forall_mem_cons.mpr ⟨hfirst v rfl, hrest⟩

theorem keeps_memberVertices (v : Vertex) :
  (memberVertices v token).Keeps files Live (AllSound files)
  := by
  have hmembers (marker : Path) (package : String) :
      (Search.memberVertices marker package).Keeps files Live (AllSound files) := by
    unfold Search.memberVertices
    split
    · exact .nil
    · apply (Search.keeps_request .searchPath trivial).bind
      intro searchPath _
      apply (Search.keeps_request .files trivial).bind
      intro tree _
      split
      · exact (Search.keeps_log _).bind fun _ _ => .nil
      · dsimp only
        split
        · exact (Search.keeps_log _).bind fun _ _ => keeps_moduleVertices _ _
        · exact keeps_moduleVertices _ _
  unfold memberVertices
  split
  · exact .pure .nil
  · apply (keeps_lift (hmembers _ _)).bind
    intro members hsound
    exact keeps_checkpoint.bind fun _ _ => .pure hsound

theorem keeps_sitesVertices {sites : List CallSite} (hsites : ∀ s ∈ sites, IsReadable files s.path) :
  (sitesVertices token sites).Keeps files Live (AllSound files)
  := by
  induction sites with
  | nil => exact .pure .nil
  | cons site sites ih =>
    rw [List.forall_mem_cons] at hsites
    apply keeps_checkpoint.bind
    intro _ hlive
    apply (keeps_askContained (q := .targets site) hsites.1 hlive (List.forall_mem_nil _) _).bind
    intro targets htargets
    apply (ih hsites.2).bind
    intro rest hrest
    exact .pure (AllSound.append (isSound_of_mem_siteVertices hsites.1 htargets) hrest)

theorem keeps_callSiteVertices {d : Definition} (hd : d.IsFound files) (hlive : Live token) :
  (callSiteVertices d token).Keeps files Live (AllSound files)
  := by
  have hask : (ask (.callSites d) (some token)).Keeps files Live (Question.Serves files (.callSites d)) :=
    Search.keeps_ask (q := .callSites d) hd (by rintro _ ⟨⟩; exact hlive)
  exact hask.bind fun sites hsites => keeps_sitesVertices hsites

theorem keeps_children {v : Vertex} (hv : v.IsSound files) :
  (children v token).Keeps files Live (AllSound files)
  := by
  unfold children
  cases hd : v.definition with
  | none => exact .pure .nil
  | some d =>
    apply keeps_checkpoint.bind
    intro _ hlive
    apply (keeps_memberVertices v).bind
    intro members hmembers
    apply (keeps_lift (Search.keeps_request .config trivial)).bind
    intro config hconfig
    have hmode : config.experimentalMode = false := hconfig
    rw [hmode]
    apply (keeps_callSiteVertices (hv.definition d hd) hlive).bind
    intro inside hinside
    exact .pure (hmembers.append hinside)

/-! ### Parents -/

theorem isFit_of_anchor? {v : Vertex} (hv : v.IsSound files) {anchor : Anchor} (h : v.anchor? = some anchor)
    (paths : List Path) :
  Question.IsFit files (.usages anchor paths)
  := by
  have hsite := hv.callPosition
  unfold Vertex.anchor? at h
  split at h
  · split at h
    · cases h
      trivial
    · split at h
      · cases h
        exact hsite
      · cases h
        trivial
  · split at h
    · cases h
      exact hsite
    · cases h

theorem keeps_enclosing? {u : Usage} (hu : ∃ p, u.path = some p ∧ Readable files p) :
  (enclosing? u).Keeps files Live fun found => ∀ d, found = some d → d.IsFound files
  := by
  apply (keeps_lift (Search.keeps_ask (q := .enclosing u) hu nofun)).bind
  intro result hresult
  cases result with
  | ok d =>
    apply Keeps.pure
    rintro _ ⟨⟩
    exact hresult d rfl
  | error e =>
    cases e with
    | cancelled => exact keeps_throw _
    | failed | notFound | unparsable | outside =>
      exact (keeps_lift (Search.keeps_report _ _)).bind fun _ _ => .pure nofun

theorem keeps_parentAt? (v : Vertex) {u : Usage} (hu : ∃ p, u.path = some p ∧ Readable files p) :
  (parentAt? v u).Keeps files Live fun found => ∀ p, found = some p → p.IsSound files
  := by
  apply (keeps_enclosing? hu).bind
  intro found hfound
  have hnone : Finding.Keeps files Live (fun found => ∀ p : Vertex, found = some p → p.IsSound files)
      (Pure.pure none) := by
    apply Keeps.pure
    rintro _ ⟨⟩
  cases found with
  | none => exact hnone
  | some d =>
    have hd : d.IsFound files := hfound d rfl
    have hposition : IsReadable files u.position.path := by
      obtain ⟨p, hp, hread⟩ := hu
      rintro q hq
      change u.path = some q at hq
      rw [hp] at hq
      cases hq
      exact hread
    have hrest : Finding.Keeps files Live (fun found => ∀ p, found = some p → p.IsSound files)
        (let parent := Vertex.ofDefinition .parent u.position d
         if v.isDefinedAt parent.element then do
          let place := s!"{parent.element.name}:{parent.element.callPosition.start.text}"
          ExceptT.lift (Search.log (.info s!"Usages: Skipped definition of {v.element.name} at {place}"))
          pure none
        else pure (some parent)) := by
      dsimp only
      split
      · exact (keeps_lift (Search.keeps_log _)).bind fun _ _ => hnone
      · apply Keeps.pure
        rintro _ ⟨⟩
        exact .ofDefinition hd hposition
    dsimp only
    cases d.path with
    | none => exact hrest
    | some file => exact (keeps_lift (Search.keeps_request (.widen file) trivial)).bind fun _ _ => hrest

theorem keeps_parentsAt (v : Vertex) (seen : List CallPosition) {us : List Usage} (hus : AllReadable files us) :
  (parentsAt v token seen us).Keeps files Live (AllSound files)
  := by
  induction us generalizing seen with
  | nil => exact .pure .nil
  | cons u us ih =>
    rw [AllReadable, List.forall_mem_cons] at hus
    apply keeps_checkpoint.bind
    intro _ _
    split
    · exact ih seen hus.2
    · apply (keeps_parentAt? v hus.1).bind
      intro parent hparent
      apply (ih _ hus.2).bind
      intro rest hrest
      apply Keeps.pure
      apply AllSound.append _ hrest
      intro p hp
      exact hparent p (Option.mem_toList.mp hp)

theorem keeps_parents {v : Vertex} (hv : v.IsSound files) :
  (parents v token).Keeps files Live (AllSound files)
  := by
  apply keeps_checkpoint.bind
  intro _ hlive
  apply (keeps_lift (Search.keeps_request .searchedFiles trivial)).bind
  intro paths _
  cases hanchor : v.anchor? with
  | none => exact .pure .nil
  | some anchor =>
    apply (keeps_askContained (q := .usages anchor paths) (isFit_of_anchor? hv hanchor paths) hlive
      (List.forall_mem_nil _) _).bind
    intro us hus
    exact keeps_checkpoint.bind fun _ _ => keeps_parentsAt v [] (allReadable_counted hus)

end Finding

/-! ### Neighbours -/

namespace Search

open Finding

theorem keeps_neighbours {caller : Token} {context : String} {find : Token → Finding (List Vertex)}
    (h : ∀ token, (find token).Keeps files Live (AllSound files)) :
  (neighbours caller context find).Keeps files Live (AllSound files)
  := by
  apply (keeps_request (.enter caller) trivial).bind
  intro search _
  apply Search.Keeps.bind (h search)
  intro result hresult
  cases result with
  | ok vs => exact (keeps_request (.leave search) trivial).bind fun _ _ => hresult vs rfl
  | error e =>
    apply (keeps_report e context).bind
    exact fun _ _ => (keeps_request (.leave search) trivial).bind fun _ _ => AllSound.nil

theorem keeps_isCancelled (token : Token) :
  (isCancelled token).Keeps files Live fun _ => True
  :=
  (keeps_request (.isCancelled token) trivial).imp fun _ _ => trivial

theorem keeps_vertexNext {v : Vertex} (hv : v.IsSound files) (caller : Token) :
  (v.next caller).Keeps files Live (AllSound files)
  := by
  unfold Vertex.next
  split
  · exact AllSound.nil
  · apply (keeps_isCancelled caller).bind
    intro cancelled _
    split
    · exact AllSound.nil
    · apply (keeps_neighbours fun _ => keeps_children hv).bind
      intro children hchildren
      apply (keeps_isCancelled caller).bind
      intro cancelled _
      split
      · exact AllSound.nil
      · apply (keeps_neighbours fun _ => keeps_parents hv).bind
        intro parents hparents
        apply (keeps_isCancelled caller).bind
        intro cancelled _
        split
        · exact AllSound.nil
        · refine AllSound.append (AllSound.append (fun leaf hleaf => ?_) hchildren) hparents
          exact hv.signature (Option.mem_toList.mp hleaf)

theorem keeps_nodes {vs : List Vertex} (hvs : AllSound files vs) :
  (nodes vs).Keeps files Live fun ns => ∀ n ∈ ns, n.IsSound files
  := by
  induction vs with
  | nil => exact List.forall_mem_nil _
  | cons v vs ih =>
    rw [AllSound, List.forall_mem_cons] at hvs
    apply (keeps_request .freshNode trivial).bind
    intro number _
    apply (ih hvs.2).bind
    intro rest hrest
    exact List.forall_mem_cons.mpr ⟨.analyzed hvs.1, hrest⟩

/-- Expanding a sound node asks only about what was handed out, and its rows are sound. -/
theorem keeps_next {n : Node} (hn : n.IsSound files) (caller : Token) :
  (n.next caller).Keeps files Live fun ns => ∀ m ∈ ns, m.IsSound files
  := by
  cases hn with
  | analyzed hv => exact (keeps_vertexNext hv caller).bind fun vs hvs => keeps_nodes hvs
  | organizer hparents hchildren =>
    rw [Node.next]
    split
    · exact List.forall_mem_nil _
    · apply (keeps_isCancelled caller).bind
      intro cancelled _
      split
      · exact List.forall_mem_nil _
      · exact List.forall_mem_append.mpr ⟨hchildren, hparents⟩

end Search

end CallGraph
