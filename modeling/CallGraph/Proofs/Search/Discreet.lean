import CallGraph.Proofs.Scripted
import CallGraph.Proofs.Search.Parts
import CallGraph.Proofs.Search.Sameness
import CallGraph.Proofs.Search.Truthful

/-!
# Answers that do not tell equal questions apart

A provider is discreet when it answers questions that are equal, with paths compared as paths, with answers that are
equal.  Then vertices that are the same have neighbours that are the same, one by one, and so do nodes.
-/

namespace CallGraph

/-- Answers that do not tell equal questions apart. -/
structure Discreet (answers : (q : Question) → Except ProviderError q.Answer) : Prop where
  script : ∀ (p q : Path) (searchPath : List Path), Equal p q →
    Matched Equal (answers (.script p searchPath)) (answers (.script q searchPath))
  callSites : ∀ d d' : Definition, Equal d d' →
    Matched (List.Forall₂ Equal) (answers (.callSites d)) (answers (.callSites d'))
  targets : ∀ s s' : CallSite, Equal s s' →
    Matched (List.Forall₂ Equal) (answers (.targets s)) (answers (.targets s'))
  scopeNames : ∀ d d' : Definition, Equal d d' →
    Matched (List.Forall₂ Equal) (answers (.scopeNames d)) (answers (.scopeNames d'))
  usages : ∀ (a a' : Anchor) (files : List Path), a.Same a' →
    Matched (List.Forall₂ Equal) (answers (.usages a files)) (answers (.usages a' files))
  enclosing : ∀ u u' : Usage, Equal u u' → Matched Equal (answers (.enclosing u)) (answers (.enclosing u'))

/-- Tables do not tell equal questions apart. -/
theorem Scripted.discreet_tabled (s : Scripted) :
  Discreet s.tabled
  := by
  have hsites (sites : List CallSite) : List.Forall₂ Equal sites sites :=
    List.forall₂_same.mpr fun site _ => CallSite.beq_iff.mpr ⟨BEq.rfl, rfl, rfl, rfl, rfl, rfl⟩
  have hnames (names : List ScopeName) : List.Forall₂ Equal names names :=
    List.forall₂_same.mpr fun name _ => ScopeName.beq_iff.mpr ⟨rfl, BEq.rfl, BEq.rfl⟩
  constructor
  · intro p q searchPath hequal
    rw [tabled, tabled, last?_congr s.scripts hequal]
    cases last? s.scripts q with
    | some d => exact .ok BEq.rfl
    | none => exact .error rfl
  · intro d d' hequal
    rw [tabled, tabled, (Definition.beq_iff.mp hequal).2.1]
    exact .ok (hsites _)
  · intro site site' hequal
    rw [tabled, tabled, (CallSite.beq_iff.mp hequal).2.1]
    exact .ok (List.forall₂_same.mpr fun _ _ => BEq.rfl)
  · intro d d' hequal
    rw [tabled, tabled, (Definition.beq_iff.mp hequal).2.1]
    exact .ok (hnames _)
  · intro a a' files hsame
    have hname : a.name = a'.name := by
      cases hsame with
      | definition hequal => exact (Definition.beq_iff.mp hequal).2.1
      | _ => rfl
    rw [tabled, tabled, hname]
    exact .ok (List.forall₂_same.mpr fun _ _ => BEq.rfl)
  · intro u u' hequal
    rw [tabled, tabled, last?_congr s.enclosing hequal, (Usage.beq_iff.mp hequal).2.1]
    cases last? s.enclosing u' with
    | some d => exact .ok BEq.rfl
    | none => exact .error rfl

variable {A : Setting}

/-! ### Members of packages -/

/-- Members of a package listed under two spellings of its directory. -/
structure PackageMembers.Twins (m m' : PackageMembers) : Prop where
  files : List.Forall₂ Path.Twins m.files m'.files
  packages : List.Forall₂ Path.Twins m.packages m'.packages

namespace PackageMembers

variable {t : FileTree} {d d' : Path}

theorem Twins.add {m m' : PackageMembers} (hm : m.Twins m') (h : Path.Twins d d') (name : String) :
  (m.add t d name).Twins (m'.add t d' name)
  := by
  have hchild : (d.child name).Twins (d'.child name) := Path.twins_join h.equal _
  have hdirectory : t.isDirectory (d.child name) = t.isDirectory (d'.child name) := by
    rw [FileTree.isDirectory, FileTree.isDirectory, FileTree.lookup_congr hchild]
  have hpackage : t.isPackage (d.child name) = t.isPackage (d'.child name) := by
    have hmarker : ((d.child name).child packageMarker).Twins ((d'.child name).child packageMarker) :=
      Path.twins_join hchild.equal _
    rw [FileTree.isPackage, FileTree.isPackage, FileTree.exists, FileTree.exists, FileTree.lookup_congr hmarker]
  have hextension : (d.child name).extension? = (d'.child name).extension? := by
    rw [Path.extension?, Path.extension?, Path.fileName?_congr hchild.equal]
  unfold PackageMembers.add
  dsimp only
  rw [hdirectory, hpackage, hextension]
  split
  · split
    · exact hm
    · split
      · exact ⟨hm.files, List.rel_append hm.packages (.cons hchild .nil)⟩
      · exact ⟨hm.files, hm.packages⟩
  · split
    · exact ⟨List.rel_append hm.files (.cons hchild .nil), hm.packages⟩
    · exact hm

/-- A directory is listed the same under two spellings. -/
theorem list_congr (h : Path.Twins d d') :
  t.list d = t.list d'
  := by
  rw [FileTree.list, FileTree.list, FileTree.lookup_congr h]

theorem Twins.foldl_add {m m' : PackageMembers} (hm : m.Twins m') (h : Path.Twins d d') (names : List String) :
  (names.foldl (PackageMembers.add t d) m).Twins (names.foldl (PackageMembers.add t d') m')
  := by
  induction names generalizing m m' with
  | nil => exact hm
  | cons name names ih => exact ih (hm.add h name)

/-- Twins have the same names. -/
theorem filterMap_moduleName? {ps qs : List Path} (h : List.Forall₂ Path.Twins ps qs) (searchPath : List Path) :
  ps.filterMap (moduleName? t searchPath) = qs.filterMap (moduleName? t searchPath)
  := by
  induction h with
  | nil => rfl
  | cons hpq _ ih =>
    rw [List.filterMap_cons, List.filterMap_cons, ih, moduleName?, moduleName?, FileTree.canonical, FileTree.canonical,
      FileTree.lookup_congr hpq]

end PackageMembers

namespace Search

theorem result_memberVertices_of_error {marker d : Path} {e : FileError} (hparent : marker.parent? = some d)
    (hlist : PackageMembers.list A.files d = .error e) (package : String) :
  (memberVertices marker package).result A = []
  := by
  have hfiles : (request .files).result A = A.files := rfl
  rw [memberVertices, hparent]
  dsimp only
  rw [result_bind, result_bind, hfiles, hlist]
  rfl

/-- The members of a package are the modules under the names of its files and packages. -/
theorem result_memberVertices_of_ok {marker d : Path} {m : PackageMembers} (hparent : marker.parent? = some d)
    (hlist : PackageMembers.list A.files d = .ok m) (package : String) :
  (memberVertices marker package).result A = (moduleVertices A.searchPath
    ((m.files ++ m.packages).filterMap (moduleName? A.files A.searchPath))).result A
  := by
  have hfiles : (request .files).result A = A.files := rfl
  rw [memberVertices, hparent]
  dsimp only
  rw [result_bind, result_bind, hfiles, hlist]
  dsimp only
  cases m.warning? package with
  | none => rfl
  | some warning => rfl

/-- The members of a package do not depend on how its marker file is spelled. -/
theorem result_memberVertices_congr {marker marker' d : Path} {package : String} (h : Equal marker marker')
    (hparent : marker.parent? = some d) (hname : d.fileName? = some package) :
  (memberVertices marker package).result A = (memberVertices marker' package).result A
  := by
  obtain ⟨d', hparent', htwins⟩ := Path.twins_parent? h hparent hname
  have hnames : A.files.list d = A.files.list d' := PackageMembers.list_congr htwins
  cases hlist : A.files.list d with
  | error e =>
    have herror (q : Path) (hq : A.files.list q = .error e) : PackageMembers.list A.files q = .error e := by
      rw [PackageMembers.list, hq]
      rfl
    rw [result_memberVertices_of_error hparent (herror d hlist),
      result_memberVertices_of_error hparent' (herror d' (hnames.symm.trans hlist))]
  | ok names =>
    have hok (q : Path) (hq : A.files.list q = .ok names) :
        PackageMembers.list A.files q = .ok (names.foldl (PackageMembers.add A.files q) {}) := by
      rw [PackageMembers.list, hq]
      rfl
    have hnone : ({} : PackageMembers).Twins {} := ⟨.nil, .nil⟩
    have hmembers := hnone.foldl_add htwins names (t := A.files)
    rw [result_memberVertices_of_ok hparent (hok d hlist),
      result_memberVertices_of_ok hparent' (hok d' (hnames.symm.trans hlist)),
      PackageMembers.filterMap_moduleName? (List.rel_append hmembers.files hmembers.packages)]

end Search

/-! ### Children -/

/-- The marker file of a package stands in the directory that the package is named after. -/
theorem Vertex.fileName?_of_packageMarker? {v : Vertex} {marker : Path} (h : v.packageMarker? = some marker) :
  ∃ d, marker.parent? = some d ∧ d.fileName? = some v.element.name
  := by
  unfold packageMarker? at h
  split at h
  · split at h
    · cases h
    · split at h
      · rename_i hdirectory
        split at h
        · rename_i hnamed
          obtain rfl := Option.some.inj h
          obtain ⟨d, hparent, hname⟩ := Option.bind_eq_some_iff.mp hdirectory
          simp only [Bool.and_eq_true, beq_iff_eq] at hnamed
          exact ⟨d, hparent, hname.trans (congrArg some hnamed.1.2.symm)⟩
        · cases h
      · cases h
  · cases h

theorem Vertex.Same.packageMarker? {v v' : Vertex} (h : v.Same v') :
  Option.Rel Equal v.packageMarker? v'.packageMarker?
  := by
  obtain ⟨hpath, _, hname, _⟩ := Element.beq_iff.mp h.element
  unfold Vertex.packageMarker?
  rw [h.isModule, hname]
  split
  · generalize v.element.path = p, v'.element.path = q at hpath
    cases Path.rel_of_equal hpath with
    | none => exact .none
    | @some p q hpq =>
      have hdirectory : p.parent?.bind Path.fileName? = q.parent?.bind Path.fileName? := by
        have hparent := Path.parent?_congr hpq
        generalize p.parent? = d, q.parent? = d' at hparent
        cases hparent with
        | none => rfl
        | some hd => exact Path.fileName?_congr hd
      dsimp only
      rw [Path.fileStem?_congr hpq, hdirectory]
      split
      · split
        · exact .some hpq
        · exact .none
      · exact .none
  · exact .none

namespace Finding

variable (hA : Discreet A.answers) (token token' : Token)

theorem match_memberVertices {v v' : Vertex} (h : v.Same v') :
  Match A (List.Forall₂ Vertex.Same) (memberVertices v token) (memberVertices v' token')
  := by
  have hmarkers := h.packageMarker?
  have hname := (Element.beq_iff.mp h.element).2.2.1
  unfold memberVertices
  cases hmarker : v.packageMarker? with
  | none =>
    rw [hmarker] at hmarkers
    cases hmarker' : v'.packageMarker? with
    | none => exact .pure .nil
    | some marker' =>
      rw [hmarker'] at hmarkers
      cases hmarkers
  | some marker =>
    rw [hmarker] at hmarkers
    cases hmarker' : v'.packageMarker? with
    | none =>
      rw [hmarker'] at hmarkers
      cases hmarkers
    | some marker' =>
      rw [hmarker'] at hmarkers
      cases hmarkers with
      | some hequal =>
        obtain ⟨d, hparent, hd⟩ := Vertex.fileName?_of_packageMarker? hmarker
        have hmembers := Search.result_memberVertices_congr (A := A) hequal hparent hd
        rw [hname] at hmembers
        have hlift : Match A (List.Forall₂ Vertex.Same)
            (ExceptT.lift (Search.memberVertices marker v.element.name))
            (ExceptT.lift (Search.memberVertices marker' v'.element.name)) := by
          apply Match.lift
          rw [hname, hmembers]
          exact List.forall₂_same.mpr fun u _ => .refl u
        exact hlift.bind fun _ _ hvs => (Match.checkpoint token token').bind fun _ _ _ => .pure hvs

include hA

theorem match_sitesVertices {sites sites' : List CallSite} (h : List.Forall₂ Equal sites sites') :
  Match A (List.Forall₂ Vertex.Same) (sitesVertices token sites) (sitesVertices token' sites')
  := by
  induction h with
  | nil => exact .pure .nil
  | @cons s t sites sites' hs _ ih =>
    apply (Match.checkpoint token token').bind
    intro _ _ _
    have htargets := Match.askContained (A := A) (.targets s) (.targets t) (hA.targets s t hs) List.Forall₂.nil
      token token' s!"while finding definitions of {s.name}" s!"while finding definitions of {t.name}"
    apply htargets.bind
    intro ds ds' hds
    apply ih.bind
    intro vs vs' hvs
    exact .pure (List.rel_append (same_siteVertices hs hds) hvs)

theorem match_callSiteVertices {d d' : Definition} (h : Equal d d') :
  Match A (List.Forall₂ Vertex.Same) (callSiteVertices d token) (callSiteVertices d' token')
  := by
  have hsites := Match.ask (A := A) (.callSites d) (.callSites d') (hA.callSites d d' h) (some token) (some token')
  exact hsites.bind fun _ _ => match_sitesVertices hA token token'

theorem match_scopeNameVertices {d d' : Definition} (h : Equal d d') :
  Match A (List.Forall₂ Vertex.Same) (scopeNameVertices d token) (scopeNameVertices d' token')
  := by
  have hnames := Match.ask (A := A) (.scopeNames d) (.scopeNames d') (hA.scopeNames d d' h) (some token) (some token')
  apply hnames.bind
  intro ns ns' hns
  exact (Match.checkpoint token token').bind fun _ _ _ => .pure (same_nameVertices hns)

/-- Vertices that are the same have children that are the same. -/
theorem match_children {v v' : Vertex} (h : v.Same v') :
  Match A (List.Forall₂ Vertex.Same) (children v token) (children v' token')
  := by
  have hdefinition := h.definition
  unfold children
  generalize v.definition = o, v'.definition = o' at hdefinition
  cases hdefinition with
  | none => exact .pure .nil
  | @some d d' hd =>
    apply (Match.checkpoint token token').bind
    intro _ _ _
    apply (match_memberVertices token token' h).bind
    intro members members' hmembers
    have hmode : Match A (fun c c' : ConfigValues => c.experimentalMode = c'.experimentalMode) (request .config)
        (request .config) := .lift rfl
    apply hmode.bind
    intro c c' hc
    rw [hc]
    split
    · exact (match_scopeNameVertices hA token token' hd).bind fun _ _ hinside =>
        .pure (List.rel_append hmembers hinside)
    · exact (match_callSiteVertices hA token token' hd).bind fun _ _ hinside =>
        .pure (List.rel_append hmembers hinside)

/-! ### Parents -/

theorem match_enclosing? {u u' : Usage} (h : Equal u u') :
  Match A (Option.Rel Equal) (enclosing? u) (enclosing? u')
  := by
  have hasked : Match A (Matched Equal) (ExceptT.lift (Search.ask (.enclosing u) none))
      (ExceptT.lift (Search.ask (.enclosing u') none)) := .lift (hA.enclosing u u' h)
  apply hasked.bind
  rintro _ _ (⟨hd⟩ | @⟨e, e', hcancelled⟩)
  · exact .pure (.some hd)
  · cases e with
    | cancelled =>
      cases e' with
      | cancelled => exact .error rfl
      | _ => cases hcancelled
    | _ =>
      cases e' with
      | cancelled => cases hcancelled
      | _ => exact .andThen (.pure .none)

theorem match_parentAt? {v v' : Vertex} (h : v.Same v') {u u' : Usage} (hu : Equal u u') :
  Match A (Option.Rel Vertex.Same) (parentAt? v u) (parentAt? v' u')
  := by
  apply (match_enclosing? hA hu).bind
  rintro _ _ (@⟨d, d', hd⟩ | _)
  · have hparent : (Vertex.ofDefinition .parent u.position d).Same (.ofDefinition .parent u'.position d') :=
      .ofDefinition hd (Usage.equal_position hu) .parent
    have hend (line line' : LogLine) : Match A (Option.Rel Vertex.Same)
        (if v.isDefinedAt (Vertex.ofDefinition .parent u.position d).element then do
            ExceptT.lift (Search.log line)
            pure none
          else pure (some (Vertex.ofDefinition .parent u.position d)))
        (if v'.isDefinedAt (Vertex.ofDefinition .parent u'.position d').element then do
            ExceptT.lift (Search.log line')
            pure none
          else pure (some (Vertex.ofDefinition .parent u'.position d'))) := by
      rw [h.isDefinedAt hparent.element]
      split
      · exact .andThen (.pure .none)
      · exact .pure (.some hparent)
    have hpath := Path.rel_of_equal (Definition.beq_iff.mp hd).1
    dsimp only
    generalize d.path = x, d'.path = x' at hpath
    cases hpath with
    | none => exact hend _ _
    | some _ => exact .andThen (hend _ _)
  · exact .pure .none

theorem match_parentsAt {v v' : Vertex} (h : v.Same v') {seen seen' : List CallPosition}
    (hseen : List.Forall₂ Equal seen seen') {us us' : List Usage} (hus : List.Forall₂ Equal us us') :
  Match A (List.Forall₂ Vertex.Same) (parentsAt v token seen us) (parentsAt v' token' seen' us')
  := by
  induction hus generalizing seen seen' with
  | nil => exact .pure .nil
  | @cons u u' us us' hu _ ih =>
    have hposition := Usage.equal_position hu
    have hunknown : u.position.isUnknown = u'.position.isUnknown := by
      obtain ⟨hpath, hstart, hstop⟩ := CallPosition.beq_iff.mp hposition
      unfold CallPosition.isUnknown
      rw [← Option.not_isSome, ← Option.not_isSome, Path.isSome_of_equal hpath, hstart, hstop]
    apply (Match.checkpoint token token').bind
    intro _ _ _
    rw [hunknown, contains_beq hposition hseen]
    split
    · exact ih hseen
    · apply (match_parentAt? hA h hu).bind
      intro parent parent' hparent
      have hrest : Match A (List.Forall₂ Vertex.Same)
          (parentsAt v token (if u'.position.isUnknown then seen else u.position :: seen) us)
          (parentsAt v' token' (if u'.position.isUnknown then seen' else u'.position :: seen') us') := by
        apply ih
        split
        · exact hseen
        · exact .cons hposition hseen
      apply hrest.bind
      intro vs vs' hvs
      refine .pure (List.rel_append ?_ hvs)
      cases hparent with
      | none => exact .nil
      | some hp => exact .cons hp .nil

/-- Vertices that are the same have parents that are the same. -/
theorem match_parents {v u : Vertex} (h : v.Same u) :
  Match A (List.Forall₂ Vertex.Same) (parents v token) (parents u token')
  := by
  have hanchor := h.anchor?
  unfold parents
  apply (Match.checkpoint token token').bind
  intro _ _ _
  have hfiles : Match A Eq (request .searchedFiles) (request .searchedFiles) := .lift rfl
  apply hfiles.bind
  rintro files _ rfl
  generalize v.anchor? = a, u.anchor? = a' at hanchor
  cases hanchor with
  | none => exact .pure .nil
  | @some a a' ha =>
    have husages := Match.askContained (A := A) (.usages a files) (.usages a' files) (hA.usages a a' files ha)
      List.Forall₂.nil token token' s!"while finding usages of {v.element.name}"
      s!"while finding usages of {u.element.name}"
    apply husages.bind
    intro us us' hus
    apply (Match.checkpoint token token').bind
    intro _ _ _
    exact match_parentsAt hA token token' h .nil (ha.counted hus)

end Finding

/-! ### Neighbours -/

namespace Vertex

variable {v v' : Vertex} (hA : Discreet A.answers)

/-- A search for neighbours finds what it looks for, or nothing if that fails. -/
theorem result_neighbours (caller : Token) (context : String) (find : Token → Finding (List Vertex)) :
  (Search.neighbours caller context find).result A = Search.found ((find caller).run.result A)
  := by
  have hbegun : (Search.neighbours caller context find).result A = (Search.begun caller context (find caller)).result A :=
    rfl
  rw [hbegun, Search.begun_eq, Search.result_bind]
  cases (find caller).run.result A with
  | ok vs => rfl
  | error e => exact Search.result_bind (Search.report e context) _

theorem same_neighbours {find find' : Token → Finding (List Vertex)} (caller : Token) (context context' : String)
    (h : Finding.Match A (List.Forall₂ Same) (find caller) (find' caller)) :
  List.Forall₂ Same ((Search.neighbours caller context find).result A)
    ((Search.neighbours caller context' find').result A)
  := by
  unfold Finding.Match at h
  rw [result_neighbours, result_neighbours]
  generalize (find caller).run.result A = r, (find' caller).run.result A = r' at h
  cases h with
  | ok hvs => exact hvs
  | error _ => exact .nil

/-- The neighbours of a vertex that is no leaf are the leaf of its definition, its children and its parents. -/
theorem result_next (v : Vertex) (caller : Token) (h : v.element.role ≠ .signature) :
  (v.next caller).result A =
    v.signature?.toList ++ (v.children caller).result A ++ (v.parents caller).result A
  := by
  have hlive : (Search.isCancelled caller).result A = false := rfl
  rw [Vertex.next, if_neg h, Search.result_bind, hlive, if_neg Bool.false_ne_true, Search.result_bind,
    Search.result_bind, hlive, if_neg Bool.false_ne_true, Search.result_bind, Search.result_bind, hlive]
  rfl

include hA

theorem Same.children (h : v.Same v') (caller : Token) :
  List.Forall₂ Same ((v.children caller).result A) ((v'.children caller).result A)
  :=
  same_neighbours caller _ _ (Finding.match_children hA caller caller h)

theorem Same.parents (h : v.Same v') (caller : Token) :
  List.Forall₂ Same ((v.parents caller).result A) ((v'.parents caller).result A)
  :=
  same_neighbours caller _ _ (Finding.match_parents hA caller caller h)

theorem Same.next (h : v.Same v') (caller : Token) :
  List.Forall₂ Same ((v.next caller).result A) ((v'.next caller).result A)
  := by
  have hrole := (Element.beq_iff.mp h.element).2.2.2.2.2.1
  by_cases hleaf : v.element.role = .signature
  · rw [Vertex.next, if_pos hleaf, Vertex.next, if_pos (hrole ▸ hleaf)]
    exact .nil
  · rw [v.result_next caller hleaf, v'.result_next caller (hrole ▸ hleaf)]
    have hsignature : List.Forall₂ Same v.signature?.toList v'.signature?.toList := by
      have hsignature := h.signature?
      generalize v.signature? = leaf, v'.signature? = leaf' at hsignature
      cases hsignature with
      | none => exact .nil
      | some hs => exact .cons hs .nil
    exact List.rel_append (List.rel_append hsignature (h.children hA caller)) (h.parents hA caller)

/-- Vertices that are the same have neighbours that are the same. -/
theorem Same.neighbours (h : v.Same v') :
  List.Forall₂ Same (A.neighbours v) (A.neighbours v')
  := by
  rw [A.neighbours_eq, A.neighbours_eq]
  exact h.next hA _

end Vertex

/-! ### Rows -/

/-- Nodes that show vertices that are the same, or group nodes that match under equal elements. -/
inductive Node.Matches : Node → Node → Prop where
  | analyzed (m n : Nat) {v v' : Vertex} (same : v.Same v') : Matches (.analyzed m v) (.analyzed n v')
  | organizer (m n : Nat) {e e' : Element} {ps ps' cs cs' : List Node} (element : Equal e e')
      (parents : List.Forall₂ Matches ps ps') (children : List.Forall₂ Matches cs cs') :
      Matches (.organizer m e ps cs) (.organizer n e' ps' cs')

namespace Node.Matches

variable {a b : Node}

theorem element (h : a.Matches b) :
  Equal a.element b.element
  := by
  cases h with
  | analyzed m n same => exact same.element
  | organizer m n element => exact element

/-- Nodes that match are expanded into rows that match. -/
theorem rows (hA : Discreet A.answers) (h : a.Matches b) :
  List.Forall₂ Matches (A.rows a) (A.rows b)
  := by
  cases h with
  | analyzed m n same =>
    rw [Setting.rows, Setting.rows, List.forall₂_map_left_iff, List.forall₂_map_right_iff]
    exact (same.neighbours hA).imp fun _ _ hv => .analyzed 0 0 hv
  | organizer m n element parents children =>
    obtain ⟨_, _, _, _, _, hrole, _⟩ := Element.beq_iff.mp element
    rw [Setting.rows, Setting.rows, hrole]
    split
    · exact .nil
    · exact List.rel_append children parents

end Node.Matches

end CallGraph
