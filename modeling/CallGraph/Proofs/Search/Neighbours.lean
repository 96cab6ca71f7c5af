import CallGraph.Proofs.Search.Ensures
import CallGraph.Search.Neighbours
import Mathlib.Data.List.Forall2

/-!
# What a node is expanded into

The children and the parents of a vertex are fixed: whatever the numbers of nodes and tokens and whatever
files are searched for usages, a search that is replied to truthfully finds the same vertices, and every
search begins its own searches below its handle.
-/

namespace CallGraph

namespace Finding

open Search (Fixed)

variable {α β ι : Type} {A : Setting} {t : Terms} {terms : ι → Terms}

/-! ### Searches that may fail -/

/-- One search after the other, unless the first one failed. -/
theorem fixed_bind {s : ι → Finding α} {f : ι → α → Finding β} (h : Fixed A terms fun i => (s i).run)
    (hf : ∀ a, Fixed A terms fun i => (f i a).run) :
  Fixed A terms fun i => (s i >>= f i).run
  := by
  apply Fixed.bind h
  intro result
  cases result with
  | ok a => apply hf a
  | error e => exact .pure (Except.error e)

/-- A request whose reply may differ from search to search. -/
theorem fixed_request_bind {r : ι → Request} {f : (i : ι) → (r i).Reply → Finding β}
    (hasks : ∀ i, (terms i).Asks (r i))
    (hf : Fixed A (fun x : (i : ι) × { reply : (r i).Reply // (terms i).Admits A (r i) reply } => terms x.1)
      fun x => (f x.1 x.2.1).run) :
  Fixed A terms fun i => (request (r i) >>= f i).run
  :=
  Fixed.request_bind hasks hf

/-- A search that does not fail. -/
theorem fixed_lift {s : ι → Search α} (h : Fixed A terms s) :
  Fixed A terms fun i => (ExceptT.lift (s i) : Finding α).run
  :=
  h.bind fun a => .pure (Except.ok a)

/-- Passing a checkpoint. -/
theorem fixed_checkpoint {token : ι → Token} (htoken : ∀ i, (terms i).handle.Covers (token i)) :
  Fixed A terms fun i => (checkpoint (token i)).run
  := by
  use .ok ()
  intro i
  apply (Search.ensures_request (.isCancelled (token i)) trivial).bind
  intro cancelled hcancelled
  cases cancelled with
  | false => exact fun _ => rfl
  | true =>
      intro hhonest
      cases hcancelled hhonest (htoken i)

/-- The result of a step whose failure goes no further. -/
theorem fixed_contained (result : Except ProviderError α) (default : α) (context : String) :
  Fixed A terms fun _ => (contained result default context).run
  := by
  unfold contained
  split
  case h_1 => exact .pure _
  case h_2 => exact .pure _
  case h_3 =>
    apply fixed_bind
    · apply fixed_lift (.unit fun _ => Search.ensures_report _ _)
    · exact fun _ => .pure _

/-- A question of which a failure goes no further. -/
theorem fixed_askContained {token : ι → Token} (htoken : ∀ i, (terms i).handle.Covers (token i))
    (q : Question) (default : q.Answer) (context : String) :
  Fixed A terms fun i => (askContained q (token i) default context).run
  := by
  apply fixed_bind
  · apply fixed_lift
    use A.answers q
    intro i
    apply Search.ensures_ask
    rintro _ ⟨⟩
    apply htoken i
  · exact fun result => fixed_contained result default context

/-- A question. -/
theorem fixed_ask {token : ι → Token} (htoken : ∀ i, (terms i).handle.Covers (token i)) (q : Question) :
  Fixed A terms fun i => (ask q (some (token i))).run
  := by
  use A.answers q
  intro i
  apply Search.ensures_ask
  rintro _ ⟨⟩
  apply htoken i

end Finding

/-! ### Children -/

namespace Search

variable {ι : Type} {A : Setting} {terms : ι → Terms}

/-- The search path of the project. -/
theorem fixed_searchPath :
  Fixed A terms fun _ => request .searchPath
  :=
  ⟨A.searchPath, fun _ => (ensures_request .searchPath trivial).imp fun _ hx => hx⟩

/-- The files. -/
theorem fixed_files :
  Fixed A terms fun _ => request .files
  :=
  ⟨A.files, fun _ => (ensures_request .files trivial).imp fun _ hx => hx⟩

/-- Writing to the log. -/
theorem fixed_log (line : LogLine) :
  Fixed A terms fun _ => log line
  :=
  .unit fun _ => ensures_log line

/-- Searching a file for usages from now on. -/
theorem fixed_widen (file : Path) :
  Fixed A terms fun _ => request (.widen file)
  :=
  .unit fun _ => (ensures_request (.widen file) trivial).imp fun _ _ => trivial

/-- Resolving a module name. -/
theorem fixed_moduleVertex (searchPath : List Path) (name : String) :
  Fixed A terms fun _ => moduleVertex searchPath name
  := by
  unfold moduleVertex
  apply Fixed.bind
  · exact ⟨_, fun _ => ensures_ask (.resolve name searchPath) none nofun⟩
  · intro result
    split
    case h_1 => exact .pure _
    case h_2 => exact .pure _
    case h_3 d =>
      cases d.path with
      | none => exact .pure _
      | some file =>
          apply Fixed.bind (fixed_widen file)
          exact fun _ => .pure _

/-- Resolving module names. -/
theorem fixed_moduleVertices (searchPath : List Path) (names : List String) :
  Fixed A terms fun _ => moduleVertices searchPath names
  := by
  induction names with
  | nil => exact .pure _
  | cons name names ih =>
      apply Fixed.bind (fixed_moduleVertex searchPath name)
      intro first
      apply Fixed.bind ih
      intro rest
      split
      case h_1 => exact .pure _
      case h_2 => exact .pure _

/-- The members of a package. -/
theorem fixed_memberVertices (marker : Path) (package : String) :
  Fixed A terms fun _ => memberVertices marker package
  := by
  unfold memberVertices
  split
  case h_1 => exact .pure _
  case h_2 directory _ =>
    apply Fixed.bind fixed_searchPath
    intro searchPath
    apply Fixed.bind fixed_files
    intro tree
    split
    case h_1 =>
      apply Fixed.bind (fixed_log _)
      exact fun _ => .pure _
    case h_2 members _ =>
      cases members.warning? package with
      | none => apply fixed_moduleVertices _ _
      | some warning =>
          apply Fixed.bind (fixed_log warning)
          exact fun _ => fixed_moduleVertices _ _

end Search

namespace Finding

open Search (Fixed)

variable {ι : Type} {A : Setting} {terms : ι → Terms} {token : ι → Token}
  (htoken : ∀ i, (terms i).handle.Covers (token i))

include htoken

/-- The vertices of call sites. -/
theorem fixed_sitesVertices (sites : List CallSite) :
  Fixed A terms fun i => (sitesVertices (token i) sites).run
  := by
  induction sites with
  | nil => exact .pure _
  | cons site sites ih =>
      apply fixed_bind (fixed_checkpoint htoken)
      intro _
      apply fixed_bind (fixed_askContained htoken _ _ _)
      intro targets
      apply fixed_bind ih
      exact fun _ => .pure _

/-- The vertices of all call sites in a scope. -/
theorem fixed_callSiteVertices (scope : Definition) :
  Fixed A terms fun i => (callSiteVertices scope (token i)).run
  := by
  apply fixed_bind (fixed_ask htoken _)
  exact fun sites => fixed_sitesVertices htoken sites

/-- The vertices of all names in a scope. -/
theorem fixed_scopeNameVertices (scope : Definition) :
  Fixed A terms fun i => (scopeNameVertices scope (token i)).run
  := by
  apply fixed_bind (fixed_ask htoken _)
  intro names
  apply fixed_bind (fixed_checkpoint htoken)
  exact fun _ => .pure _

/-- The members of a vertex. -/
theorem fixed_memberVertices (v : Vertex) :
  Fixed A terms fun i => (memberVertices v (token i)).run
  := by
  unfold memberVertices
  split
  case h_1 => exact .pure _
  case h_2 marker _ =>
    apply fixed_bind (fixed_lift (Search.fixed_memberVertices marker _))
    intro members
    apply fixed_bind (fixed_checkpoint htoken)
    exact fun _ => .pure _

/-- The children of a vertex. -/
theorem fixed_children (v : Vertex) :
  Fixed A terms fun i => (children v (token i)).run
  := by
  unfold children
  split
  case h_1 => exact .pure _
  case h_2 d _ =>
    apply fixed_bind (fixed_checkpoint htoken)
    intro _
    apply fixed_bind (fixed_memberVertices htoken v)
    intro members
    -- Of the configuration only the mode matters.
    have hmode : Fixed A terms fun _ =>
        (do return (← request .config).experimentalMode : Finding Bool).run := by
      use .ok A.experimental
      intro i
      exact ⟨trivial, fun config hconfig hhonest => congrArg Except.ok (hconfig hhonest)⟩
    apply fixed_bind (f := fun i experimental => do
      let inside ← if experimental then scopeNameVertices d (token i) else callSiteVertices d (token i)
      pure (members ++ inside)) hmode
    intro experimental
    cases experimental with
    | true =>
        apply fixed_bind (fixed_scopeNameVertices htoken d)
        exact fun _ => .pure _
    | false =>
        apply fixed_bind (fixed_callSiteVertices htoken d)
        exact fun _ => .pure _

/-! ### Parents -/

omit htoken in
/-- The scope around a usage. -/
theorem fixed_enclosing? (u : Usage) :
  Fixed A terms fun _ => (enclosing? u).run
  := by
  unfold enclosing?
  apply fixed_bind
  · apply fixed_lift
    exact ⟨_, fun _ => Search.ensures_ask (.enclosing u) none nofun⟩
  · intro result
    split
    case h_1 => exact .pure _
    case h_2 => exact .pure _
    case h_3 =>
      apply fixed_bind (fixed_lift (.unit fun _ => Search.ensures_report _ _))
      exact fun _ => .pure _

omit htoken in
/-- The parent that a usage gives. -/
theorem fixed_parentAt? (v : Vertex) (u : Usage) :
  Fixed A terms fun _ => (parentAt? v u).run
  := by
  unfold parentAt?
  apply fixed_bind (fixed_enclosing? u)
  intro result
  split
  case h_1 => exact .pure _
  case h_2 d =>
    have hrest : Fixed A terms fun _ => (do
        let parent := Vertex.ofDefinition .parent u.position d
        if v.isDefinedAt parent.element then
          let place := s!"{parent.element.name}:{parent.element.callPosition.start.text}"
          ExceptT.lift (Search.log (.info s!"Usages: Skipped definition of {v.element.name} at {place}"))
          pure none
        else pure (some parent) : Finding (Option Vertex)).run := by
      dsimp only
      split
      case isTrue =>
        apply fixed_bind (fixed_lift (Search.fixed_log _))
        exact fun _ => .pure _
      case isFalse => exact .pure _
    cases d.path with
    | none => apply hrest
    | some file =>
        apply fixed_bind (fixed_lift (Search.fixed_widen file))
        exact fun _ => hrest

/-- The parents that usages give. -/
theorem fixed_parentsAt (v : Vertex) (usages : List Usage) :
  ∀ seen, Fixed A terms fun i => (parentsAt v (token i) seen usages).run
  := by
  induction usages with
  | nil => exact fun _ => .pure _
  | cons u us ih =>
      intro seen
      apply fixed_bind (fixed_checkpoint htoken)
      intro _
      split
      case isTrue => apply ih seen
      case isFalse =>
        apply fixed_bind (fixed_parentAt? v u)
        intro parent
        apply fixed_bind (ih _)
        exact fun _ => .pure _

/-- The usages of an anchor are the same whatever files are searched. -/
theorem fixed_usages (anchor : Anchor) (files : ι → List Path) (context : String) :
  Fixed (α := Except ProviderError (List Usage)) A terms fun i =>
    (askContained (.usages anchor (files i)) (token i) [] context).run
  := by
  have hask : Fixed (α := Except ProviderError (List Usage)) A terms fun i =>
      Search.ask (.usages anchor (files i)) (some (token i)) := by
    use A.answers (.usages anchor [])
    intro i
    rw [← A.answers_usages anchor (files i) []]
    apply Search.ensures_ask
    rintro _ ⟨⟩
    apply htoken i
  apply fixed_bind (fixed_lift hask) fun result => fixed_contained result [] context

/-- The parents that an anchor gives in some files. -/
theorem fixed_parentsOf (v : Vertex) (anchor : Anchor) (files : ι → List Path) (context : String) :
  Fixed A terms fun i => (do
    let usages ← askContained (.usages anchor (files i)) (token i) [] context
    checkpoint (token i)
    parentsAt v (token i) [] (anchor.counted usages) : Finding (List Vertex)).run
  := by
  apply fixed_bind (fixed_usages htoken anchor files context)
  intro usages
  apply fixed_bind (fixed_checkpoint htoken)
  exact fun _ => fixed_parentsAt htoken v _ []

/-- The parents of a vertex. -/
theorem fixed_parents (v : Vertex) :
  Fixed A terms fun i => (parents v (token i)).run
  := by
  unfold parents
  apply fixed_bind (fixed_checkpoint htoken)
  intro _
  apply fixed_request_bind (r := fun _ => .searchedFiles) fun _ => trivial
  cases v.anchor? with
  | none => exact .pure _
  | some anchor =>
      have htoken' : ∀ x : (i : ι) × { reply : List Path // (terms i).Admits A .searchedFiles reply },
          (terms x.1).handle.Covers (token x.1) := fun x => htoken x.1
      apply fixed_parentsOf htoken' v anchor _ _

end Finding

/-! ### All neighbours -/

namespace Search

variable {ι : Type} {A : Setting} {t : Terms} {terms : ι → Terms}

/-- A search for neighbours once it has begun. -/
def begun (search : Token) (context : String) (find : Finding (List Vertex)) : Search (List Vertex) := do
  let result ← find.run
  let found ← match result with
    | .ok vs => pure vs
    | .error e => do
      report e context
      pure []
  request (.leave search)
  pure found

/-- A search for neighbours is fixed if it is so under every token below its handle. -/
theorem fixed_neighbours (context : String) {find : Token → Finding (List Vertex)}
    (hfind : ∀ {κ : Type} (terms : κ → Terms) (token : κ → Token),
      (∀ i, (terms i).handle.Covers (token i)) → Fixed A terms fun i => (find (token i)).run) :
  Fixed A terms fun i => neighbours (terms i).handle context find
  := by
  unfold neighbours
  apply Fixed.request_bind (r := fun i => .enter (terms i).handle) fun i => (terms i).handle.covers_self
  apply Fixed.bind
  · apply hfind _ _ fun x => x.2.2
  · intro result
    have hleave : ∀ found : List Vertex, Fixed A
        (fun x : (i : ι) × { reply : Token // (terms i).Admits A (.enter (terms i).handle) reply } =>
          terms x.1)
        (fun x => do
          request (.leave x.2.1)
          Pure.pure found) := by
      intro found
      apply Fixed.bind
      · exact .unit fun x => (ensures_request (.leave x.2.1) trivial).imp fun _ _ => trivial
      · exact fun _ => .pure found
    cases result with
    | ok found => apply hleave found
    | error e =>
        apply Fixed.bind (.unit fun _ => ensures_report e context)
        exact fun _ => hleave []

/-- The caller's token is not cancelled. -/
theorem fixed_isCancelled :
  Fixed A terms fun i => isCancelled (terms i).handle
  := by
  use false
  intro i
  apply (ensures_request (.isCancelled (terms i).handle) trivial).imp
  exact fun cancelled hcancelled hhonest => hcancelled hhonest (terms i).handle.covers_self

end Search

namespace Vertex

open Search (Fixed)

variable {ι : Type} {A : Setting} {terms : ι → Terms}

/-- The children of a vertex are fixed. -/
theorem fixed_children (v : Vertex) :
  Fixed A terms fun i => v.children (terms i).handle
  :=
  Search.fixed_neighbours _ fun _ _ htoken => Finding.fixed_children htoken v

/-- The parents of a vertex are fixed. -/
theorem fixed_parents (v : Vertex) :
  Fixed A terms fun i => v.parents (terms i).handle
  :=
  Search.fixed_neighbours _ fun _ _ htoken => Finding.fixed_parents htoken v

/-- The neighbours of a vertex are fixed. -/
theorem fixed_next (v : Vertex) :
  Fixed A terms fun i => v.next (terms i).handle
  := by
  unfold next
  split
  case isTrue => exact .pure _
  case isFalse =>
    apply Fixed.bind Search.fixed_isCancelled
    intro cancelled
    cases cancelled with
    | true => exact .pure _
    | false =>
        apply Fixed.bind v.fixed_children
        intro children
        apply Fixed.bind Search.fixed_isCancelled
        intro cancelled
        cases cancelled with
        | true => exact .pure _
        | false =>
            apply Fixed.bind v.fixed_parents
            intro parents
            apply Fixed.bind Search.fixed_isCancelled
            intro cancelled
            cases cancelled with
            | true => exact .pure _
            | false => exact .pure _

end Vertex

/-! ### The rows of a node -/

/-- Two nodes are one and the same, or show the same vertex under different numbers. -/
inductive Node.Alike : Node → Node → Prop where
  | refl (node : Node) : Alike node node
  | analyzed (m n : Nat) (v : Vertex) : Alike (.analyzed m v) (.analyzed n v)

namespace Node.Alike

variable {a b c : Node}

theorem element (h : a.Alike b) :
  a.element = b.element
  := by
  cases h <;> rfl

end Node.Alike

namespace Setting

variable (A : Setting)

/-- All truthful searches for the neighbours of a vertex find the same. -/
theorem exists_neighbours (v : Vertex) :
  ∃ vs, ∀ t : Terms, (v.next t.handle).Ensures A t fun found => t.honest → found = vs
  :=
  v.fixed_next

/-- The vertices that every truthful search for the neighbours of a vertex finds. -/
noncomputable def neighbours (v : Vertex) : List Vertex :=
  (A.exists_neighbours v).choose

/-- The search for the neighbours of a vertex finds them. -/
theorem ensures_neighbours (v : Vertex) (t : Terms) :
  (v.next t.handle).Ensures A t fun found => t.honest → found = A.neighbours v
  :=
  (A.exists_neighbours v).choose_spec t

/-- The rows that a node is expanded into, up to the numbers of those that are found by analysis. -/
noncomputable def rows : Node → List Node
  | .analyzed _ v => (A.neighbours v).map (.analyzed 0)
  | .organizer _ element parents children => if element.role = .signature then [] else children ++ parents

end Setting

namespace Search

variable {A : Setting} {t : Terms}

/-- Making vertices nodes. -/
theorem ensures_nodes (vs : List Vertex) :
  (nodes vs).Ensures A t fun rows => List.Forall₂ Node.Alike rows (vs.map (.analyzed 0))
  := by
  induction vs with
  | nil => exact .nil
  | cons v vs ih =>
      apply Ensures.bind (P := fun first => first.Alike (.analyzed 0 v))
      · exact ⟨trivial, fun number _ => .analyzed number 0 v⟩
      · intro first hfirst
        apply ih.bind
        exact fun rest hrest => .cons hfirst hrest

end Search

/-- Whatever is replied truthfully, a node is expanded into rows alike. -/
theorem Node.ensures_next (A : Setting) {a b : Node} (h : a.Alike b) (t : Terms) :
  (a.next t.handle).Ensures A t fun rows => t.honest → List.Forall₂ Alike rows (A.rows b)
  := by
  have hanalyzed : ∀ m n v, ((Node.analyzed m v).next t.handle).Ensures A t fun rows =>
      t.honest → List.Forall₂ Alike rows (A.rows (.analyzed n v)) := by
    intro m n v
    apply (A.ensures_neighbours v t).bind
    intro found hfound
    apply (Search.ensures_nodes found).imp
    intro rows hrows hhonest
    rw [Setting.rows, ← hfound hhonest]
    apply hrows
  cases h with
  | analyzed m n v => apply hanalyzed m n v
  | refl =>
      cases a with
      | analyzed n v => apply hanalyzed n n v
      | organizer number element parents children =>
          have hsame : ∀ rows : List Node, List.Forall₂ Alike rows rows :=
            fun rows => List.forall₂_same.mpr fun node _ => .refl node
          simp only [next, Setting.rows]
          split
          case isTrue => exact fun _ => .nil
          case isFalse =>
            refine ⟨trivial, fun cancelled hcancelled => ?_⟩
            cases cancelled with
            | false => exact fun _ => hsame _
            | true =>
                intro hhonest
                cases hcancelled hhonest t.handle.covers_self

end CallGraph
