import CallGraph.Proofs.Search.Discreet

/-!
# Files that offer the same modules

Of the files, searches look at nothing but the modules that the directories of packages offer.  So where these are the
same, nodes have the same rows, and what a script calls is the same among whatever files.
-/

namespace CallGraph

variable {A : Setting} {files : FileTree}

/-- The names of the modules that a directory offers: those of its files, then those of its packages. -/
def FileTree.modulesIn (t : FileTree) (searchPath : List Path) (directory : Path) : List String :=
  match PackageMembers.list t directory with
  | .ok members => (members.files ++ members.packages).filterMap (moduleName? t searchPath)
  | .error _ => []

/-- Files among which every directory offers the same modules. -/
def FileTree.OffersAs (t t' : FileTree) : Prop :=
  ∀ searchPath directory, t.modulesIn searchPath directory = t'.modulesIn searchPath directory

theorem FileTree.OffersAs.symm {t t' : FileTree} (h : t.OffersAs t') :
  t'.OffersAs t
  :=
  fun searchPath directory => (h searchPath directory).symm

theorem FileTree.OffersAs.trans {t t' t'' : FileTree} (h : t.OffersAs t') (h' : t'.OffersAs t'') :
  t.OffersAs t''
  :=
  fun searchPath directory => (h searchPath directory).trans (h' searchPath directory)

/-- The setting over other files. -/
def Setting.over (A : Setting) (files : FileTree) : Setting :=
  { A with files }

/-! ### Searches that do not look at files -/

namespace Finding

variable {α β : Type}

/-- A search that comes to the same over other files. -/
def SameOver (A : Setting) (files : FileTree) (s : Finding α) : Prop :=
  s.run.result (A.over files) = s.run.result A

theorem SameOver.bind {s : Finding α} {f : α → Finding β} (h : SameOver A files s) (hf : ∀ a, SameOver A files (f a)) :
  SameOver A files (s >>= f)
  := by
  unfold SameOver at h ⊢
  rw [ExceptT.run_bind, Search.result_bind, Search.result_bind, h]
  cases s.run.result A with
  | ok a => exact hf a
  | error e => rfl

theorem SameOver.lift {s : Search α} (h : s.result (A.over files) = s.result A) :
  SameOver A files (ExceptT.lift s)
  := by
  unfold SameOver
  rw [result_lift, result_lift, h]

theorem sameOver_contained (result : Except ProviderError α) (default : α) (context : String) :
  SameOver A files (contained result default context)
  := by
  cases result with
  | ok a => rfl
  | error e => cases e <;> rfl

theorem sameOver_checkpoint (token : Token) :
  SameOver A files (checkpoint token)
  :=
  rfl

theorem sameOver_ask (q : Question) (token : Option Token) :
  SameOver A files (ask q token)
  :=
  rfl

theorem sameOver_askContained (q : Question) (token : Token) (default : q.Answer) (context : String) :
  SameOver A files (askContained q token default context)
  :=
  .bind (.lift rfl) fun _ => sameOver_contained _ _ _

/-! ### Children -/

theorem sameOver_sitesVertices (token : Token) (sites : List CallSite) :
  SameOver A files (sitesVertices token sites)
  := by
  induction sites with
  | nil => rfl
  | cons site sites ih =>
    apply (sameOver_checkpoint token).bind fun _ => ?_
    apply (sameOver_askContained _ _ _ _).bind fun targets => ?_
    exact ih.bind fun rest => rfl

theorem sameOver_callSiteVertices (scope : Definition) (token : Token) :
  SameOver A files (callSiteVertices scope token)
  :=
  (sameOver_ask _ _).bind fun sites => sameOver_sitesVertices token sites

theorem sameOver_scopeNameVertices (scope : Definition) (token : Token) :
  SameOver A files (scopeNameVertices scope token)
  :=
  (sameOver_ask _ _).bind fun _ => (sameOver_checkpoint token).bind fun _ => rfl

end Finding

namespace Search

theorem result_moduleVertex_over (searchPath : List Path) (name : String) :
  (moduleVertex searchPath name).result (A.over files) = (moduleVertex searchPath name).result A
  := by
  have hasked : (ask (.resolve name searchPath) none).result (A.over files) =
      (ask (.resolve name searchPath) none).result A := rfl
  rw [moduleVertex, result_bind, result_bind, hasked]
  cases (ask (.resolve name searchPath) none).result A with
  | error e => rfl
  | ok found =>
    cases found with
    | none => rfl
    | some d =>
      dsimp only
      cases d.path <;> rfl

theorem result_moduleVertices_over (searchPath : List Path) (names : List String) :
  (moduleVertices searchPath names).result (A.over files) = (moduleVertices searchPath names).result A
  := by
  induction names with
  | nil => rfl
  | cons name names ih =>
    rw [moduleVertices, result_bind, result_bind, result_bind, result_bind, result_moduleVertex_over, ih]
    cases (moduleVertex searchPath name).result A <;> rfl

/-- The members of a package are the modules that its directory offers. -/
theorem result_memberVertices (marker : Path) (package : String) :
  (memberVertices marker package).result A = match marker.parent? with
    | none => []
    | some directory => (moduleVertices A.searchPath (A.files.modulesIn A.searchPath directory)).result A
  := by
  cases hparent : marker.parent? with
  | none => rw [memberVertices, hparent]; rfl
  | some directory =>
    dsimp only
    rw [FileTree.modulesIn]
    cases hlist : PackageMembers.list A.files directory with
    | error e => exact result_memberVertices_of_error hparent hlist package
    | ok members => exact result_memberVertices_of_ok hparent hlist package

end Search

namespace Finding

/-! ### Parents -/

theorem sameOver_enclosing? (u : Usage) :
  SameOver A files (enclosing? u)
  := by
  apply SameOver.bind (.lift rfl) fun result => ?_
  cases result with
  | ok d => rfl
  | error e => cases e <;> rfl

theorem sameOver_parentAt? (v : Vertex) (u : Usage) :
  SameOver A files (parentAt? v u)
  := by
  apply (sameOver_enclosing? u).bind fun result => ?_
  cases result with
  | none => rfl
  | some d =>
    dsimp only
    cases d.path with
    | none => 
      dsimp only
      split <;> rfl
    | some file =>
      dsimp only
      split <;> rfl

theorem sameOver_parentsAt (v : Vertex) (token : Token) (usages : List Usage) (seen : List CallPosition) :
  SameOver A files (parentsAt v token seen usages)
  := by
  induction usages generalizing seen with
  | nil => rfl
  | cons u us ih =>
    apply (sameOver_checkpoint token).bind fun _ => ?_
    split
    · exact ih seen
    · apply (sameOver_parentAt? v u).bind fun parent => ?_
      exact (ih _).bind fun rest => rfl

theorem sameOver_parents (v : Vertex) (token : Token) :
  SameOver A files (parents v token)
  := by
  apply (sameOver_checkpoint token).bind fun _ => ?_
  have hsearched : SameOver A files (request .searchedFiles) := rfl
  apply hsearched.bind fun searched => ?_
  cases v.anchor? with
  | none => rfl
  | some anchor =>
    apply (sameOver_askContained _ _ _ _).bind fun usages => ?_
    exact (sameOver_checkpoint token).bind fun _ => sameOver_parentsAt v token _ _

theorem sameOver_memberVertices (h : A.files.OffersAs files) (v : Vertex) (token : Token) :
  SameOver A files (memberVertices v token)
  := by
  unfold memberVertices
  cases v.packageMarker? with
  | none => rfl
  | some marker =>
    have hmembers : (Search.memberVertices marker v.element.name).result (A.over files) =
        (Search.memberVertices marker v.element.name).result A := by
      rw [Search.result_memberVertices, Search.result_memberVertices]
      cases marker.parent? with
      | none => rfl
      | some directory =>
        have hoffers : files.modulesIn A.searchPath directory = A.files.modulesIn A.searchPath directory :=
          (h A.searchPath directory).symm
        change (Search.moduleVertices A.searchPath (files.modulesIn A.searchPath directory)).result (A.over files) = _
        rw [Search.result_moduleVertices_over, hoffers]
    exact SameOver.bind (.lift hmembers) fun _ => (sameOver_checkpoint token).bind fun _ => rfl

theorem sameOver_children (h : A.files.OffersAs files) (v : Vertex) (token : Token) :
  SameOver A files (children v token)
  := by
  unfold children
  cases v.definition with
  | none => rfl
  | some d =>
    apply (sameOver_checkpoint token).bind fun _ => ?_
    apply (sameOver_memberVertices h v token).bind fun members => ?_
    have hmode : SameOver A files (do return (← request .config).experimentalMode : Finding Bool) := rfl
    apply SameOver.bind (f := fun experimental => do
      let inside ← if experimental then scopeNameVertices d token else callSiteVertices d token
      Pure.pure (members ++ inside)) hmode fun experimental => ?_
    cases experimental with
    | true => exact (sameOver_scopeNameVertices d token).bind fun _ => rfl
    | false => exact (sameOver_callSiteVertices d token).bind fun _ => rfl

end Finding

/-! ### All neighbours -/

namespace Setting

/-- Nodes have the same neighbours over other files that offer the same modules. -/
theorem neighbours_over (h : A.files.OffersAs files) (v : Vertex) :
  (A.over files).neighbours v = A.neighbours v
  := by
  rw [neighbours_eq, neighbours_eq]
  by_cases hleaf : v.element.role = .signature
  · rw [Vertex.next, if_pos hleaf]
    rfl
  · have hchildren := Finding.sameOver_children h v (.root 0)
    have hparents : Finding.SameOver A files (Finding.parents v (.root 0)) := Finding.sameOver_parents v (.root 0)
    rw [v.result_next _ hleaf, v.result_next _ hleaf, Vertex.children, Vertex.result_neighbours,
      Vertex.result_neighbours, hchildren, Vertex.parents, Vertex.result_neighbours, Vertex.result_neighbours, hparents]

theorem rows_over (h : A.files.OffersAs files) :
  (A.over files).rows = A.rows
  := by
  funext node
  cases node with
  | analyzed number v => exact congrArg (List.map (Node.analyzed 0)) (neighbours_over h v)
  | organizer number element parents children => rfl

end Setting

end CallGraph
