import CallGraph.Proofs.Frontier.Reference
import CallGraph.Proofs.Search.Discreet
import CallGraph.Search.Roots
import Mathlib.Data.List.Chain

/-!
# Paths that can be followed again

The columns that commands come to are in line: each but the last has a selected node, whose rows are those of the next
one, and the last has none.  The selected nodes are the path, in which each node is a row of the one before.

A setting is coherent when the vertices that are met in it carry equal definitions if they show equal elements.  Let
answers not tell equal questions apart, too.  Then roots that show equal elements are expanded into rows that match,
so a path that was gone from some roots can be followed exactly from any roots among which its first element is.
-/

namespace CallGraph

/-! ### Columns in line -/

section

variable {A : Setting}

/-- Columns in line, and the path along their selections. -/
inductive Setting.Line (A : Setting) : List Column → List Node → Prop where
  | last (nodes : List Node) : Line A [.populated nodes] []
  | cons {column next : Column} {rest : List Column} {node : Node} {path : List Node}
      (state : column.state = .populated) (selected : column.selectedNode? = some node)
      (rows : next.nodes = A.rows node) (line : Line A (next :: rest) path) :
      Line A (column :: next :: rest) (node :: path)

namespace Setting.Line

variable {columns rest : List Column} {column : Column} {path : List Node} {node : Node}

/-- A column more than there are nodes on the path. -/
theorem length (h : A.Line columns path) :
  columns.length = path.length + 1
  := by
  induction h with
  | last nodes => rfl
  | cons state selected rows line ih => rw [List.length_cons, ih, List.length_cons]

/-- The first node of the path is in the first column. -/
theorem mem_of_head? (h : A.Line (column :: rest) path) (hnode : path.head? = some node) :
  node ∈ column.nodes
  := by
  cases h with
  | last nodes => cases hnode
  | cons state selected rows line =>
    cases hnode
    exact Column.mem_of_selectedNode? selected

/-- Each node of the path is a row of the one before. -/
theorem isChain (h : A.Line columns path) :
  path.IsChain fun a b => b ∈ A.rows a
  := by
  induction h with
  | last nodes => exact .nil
  | @cons column next rest node path state selected rows line ih =>
    cases path with
    | nil => exact .singleton node
    | cons second path => exact .cons_cons (rows ▸ line.mem_of_head? rfl) ih

/-- A row is selected. -/
theorem select (h : A.Line columns path) {index row : Nat} {chosen : Column} (hchosen : columns[index]? = some chosen)
    (hnode : chosen.nodes[row]? = some node) :
  A.Line (columns.take index ++ [{ chosen with selected := some row }, .populated (A.rows node)])
    (path.take index ++ [node])
  := by
  have hlast (chosen : Column) (hstate : chosen.state = .populated) (hnode : chosen.nodes[row]? = some node) :
      A.Line [{ chosen with selected := some row }, .populated (A.rows node)] [node] :=
    .cons hstate hnode rfl (.last _)
  induction h generalizing index with
  | last nodes =>
    cases index with
    | zero =>
      cases hchosen
      exact hlast _ rfl hnode
    | succ index => cases hchosen
  | @cons column next rest _ path state selected rows line ih =>
    cases index with
    | zero =>
      cases hchosen
      exact hlast _ state hnode
    | succ index =>
      cases index with
      | zero =>
        have hnext := @ih 0 hchosen
        cases hchosen
        exact .cons state selected rows hnext
      | succ index => exact .cons state selected rows (@ih (index + 1) hchosen)

/-- Rows are added to the first column. -/
theorem append (h : A.Line (column :: rest) path) (nodes : List Node) :
  A.Line ({ column with nodes := column.nodes ++ nodes } :: rest) path
  := by
  cases h with
  | last roots => exact .last _
  | @cons _ next rest node path state selected rows line =>
    refine .cons state ?_ rows line
    obtain ⟨row, hrow, hnode⟩ := Option.bind_eq_some_iff.mp selected
    apply Option.bind_eq_some_iff.mpr
    exact ⟨row, hrow, List.getElem?_append_left (List.getElem?_eq_some_iff.mp hnode).1 ▸ hnode⟩

end Setting.Line

/-! ### Commands -/

/-- The columns after a row is selected that is there. -/
theorem Setting.perform_select (A : Setting) {columns : List Column} {index row : Nat} {chosen : Column} {node : Node}
    (hchosen : columns[index]? = some chosen) (hnode : chosen.nodes[row]? = some node) :
  A.perform columns (.select index row) =
    columns.take index ++ [{ chosen with selected := some row }, .populated (A.rows node)]
  := by
  rw [Setting.perform, hchosen]
  dsimp only
  rw [hnode]

/-- Nodes of which no two have the same number. -/
def Node.Numbered (nodes : List Node) : Prop :=
  ∀ a ∈ nodes, ∀ b ∈ nodes, a.same b = true → a = b

/-- A node that is kept is found again. -/
theorem Column.selectedNode?_findIdx? {nodes : List Node} (h : Node.Numbered nodes) {selected : Node}
    (hselected : selected ∈ nodes) (state : ColumnState) :
  selectedNode? ⟨nodes, state, nodes.findIdx? (·.same selected)⟩ = some selected
  := by
  have hself : selected.same selected = true := beq_self_eq_true _
  cases hfound : nodes.findIdx? (·.same selected) with
  | none =>
    have hnone := List.findIdx?_eq_none_iff.mp hfound selected hselected
    rw [hself] at hnone
    cases hnone
  | some row =>
    obtain ⟨hlt, hsame, -⟩ := List.findIdx?_eq_some_iff_getElem.mp hfound
    have hequal := h _ (List.getElem_mem hlt) _ hselected hsame
    rw [selectedNode?, Option.bind_some, List.getElem?_eq_getElem hlt, hequal]

namespace Setting.Line

variable {columns : List Column} {path : List Node}

/-- Whatever row is to be selected, columns stay in line. -/
theorem perform_select (h : A.Line columns path) (index row : Nat) :
  ∃ path', A.Line (A.perform columns (.select index row)) path'
  := by
  rw [Setting.perform]
  cases hchosen : columns[index]? with
  | none => exact ⟨path, h⟩
  | some chosen =>
    dsimp only
    cases hnode : chosen.nodes[row]? with
    | none => exact ⟨path, h⟩
    | some node => exact ⟨_, h.select hchosen hnode⟩

/-- Columns stay in line when roots are removed of which no two have the same number. -/
theorem perform_removeRoots (h : A.Line columns path) (hroots : ∀ root ∈ columns.head?, Node.Numbered root.nodes)
    (nodes : List Node) :
  ∃ path', A.Line (A.perform columns (.removeRoots nodes)) path'
  := by
  cases h with
  | last roots => exact ⟨[], .last _⟩
  | @cons root next rest selected path state hselected rows line =>
    simp only [Setting.perform, hselected]
    have hkept : Node.Numbered (root.nodes.filter fun node => !Frontier.isAmong nodes node) :=
      fun a ha b hb => hroots root rfl a (List.mem_filter.mp ha).1 b (List.mem_filter.mp hb).1
    split
    case isTrue =>
      obtain ⟨rows, state, selected⟩ := root
      cases state
      exact ⟨[], .last _⟩
    case isFalse hamong =>
      refine ⟨_, .cons state (Column.selectedNode?_findIdx? hkept (List.mem_filter.mpr ?_) root.state) rows line⟩
      exact ⟨Column.mem_of_selectedNode? hselected, by simpa using hamong⟩

/-- Columns stay in line when roots are added. -/
theorem perform_addRoots (h : A.Line columns path) (nodes : List Node) :
  A.Line (A.perform columns (.addRoots nodes)) path
  := by
  cases columns with
  | nil => cases h
  | cons root rest => exact h.append nodes

end Setting.Line

end

/-! ### Elements that can be followed -/

variable {A : Setting} {seen : FileTree → Path → Prop}

/-- From some rows some elements can be followed exactly, whichever exact match is taken on the way. -/
def Setting.Follows (A : Setting) : List Node → List Element → Prop
  | _, [] => True
  | nodes, e :: es =>
    (∃ node ∈ nodes, Equal node.element e) ∧ ∀ node ∈ nodes, Equal node.element e → A.Follows (A.rows node) es

/-! ### Vertices that are met -/

/-- The vertex of a module. -/
def Vertex.ofModule (d : Definition) : Vertex :=
  .ofDefinition .definition ⟨d.path, .known 1 0, .unknown⟩ d

namespace Setting

/-- The vertices that are met: those of modules, those that scripts call, and their neighbours. -/
inductive Meets (A : Setting) : Vertex → Prop where
  | module {name : String} {d : Definition} (answer : A.answers (.resolve name A.searchPath) = .ok (some d)) :
      Meets A (.ofModule d)
  | script {path : Path} {d : Definition} {v : Vertex} (answer : A.answers (.script path A.searchPath) = .ok d)
      (child : v ∈ (Search.scriptChildren path d).result A) : Meets A v
  | neighbour {v u : Vertex} (meets : Meets A v) (neighbour : u ∈ A.neighbours v) : Meets A u

/-- Vertices that are met and show equal elements carry equal definitions. -/
def IsCoherent (A : Setting) : Prop :=
  ∀ v u, A.Meets v → A.Meets u → Equal v.element u.element → Option.Rel Equal v.definition u.definition

/-- Rows of vertices that are met. -/
inductive Met (A : Setting) : Node → Prop where
  | mk (number : Nat) {v : Vertex} (meets : A.Meets v) : Met A (.analyzed number v)

/-- What a tracked module is shown by. -/
inductive ShowsModule (A : Setting) (name : String) : Node → Prop where
  | mk (number : Nat) {d : Definition} (answer : A.answers (.resolve name A.searchPath) = .ok (some d)) :
      ShowsModule A name (.analyzed number (.ofModule d))

/-- What a tracked script is shown by that was resolved among some files. -/
inductive ShowsScript (A : Setting) (files : FileTree) (path : Path) : Node → Prop where
  | mk (number first : Nat) {d : Definition} (answer : A.answers (.script path A.searchPath) = .ok d) :
      ShowsScript A files path (.organizer number (Search.scriptElement files path d) []
        (Node.numbered first ((Search.scriptChildren path d).result A)))

/-- What roots are shown: modules, and scripts that were `seen` among the files among which they were resolved. -/
inductive ShowsRoot (A : Setting) (seen : FileTree → Path → Prop) (node : Node) : Prop where
  | module {name : String} (shows : A.ShowsModule name node)
  | script {files : FileTree} {path : Path} (seen : seen files path) (shows : A.ShowsScript files path node)

/-! ### Rows of vertices that are met -/

theorem Met.rows {a b : Node} (h : A.Met a) (hb : b ∈ A.rows a) :
  A.Met b
  := by
  obtain ⟨number, hmeets⟩ := h
  obtain ⟨u, hu, rfl⟩ := List.mem_map.mp hb
  exact ⟨0, .neighbour hmeets hu⟩

theorem IsCoherent.matches (h : A.IsCoherent) {a b : Node} (ha : A.Met a) (hb : A.Met b)
    (hequal : Equal a.element b.element) :
  a.Matches b
  := by
  obtain ⟨m, hv⟩ := ha
  obtain ⟨n, hu⟩ := hb
  exact .analyzed m n ⟨hequal, h _ _ hv hu hequal⟩

theorem Met.of_mem_numbered {number : Nat} {vs : List Vertex} (h : ∀ v ∈ vs, A.Meets v) {node : Node}
    (hnode : node ∈ Node.numbered number vs) :
  A.Met node
  := by
  induction vs generalizing number with
  | nil => cases hnode
  | cons v vs ih =>
    rcases List.mem_cons.mp hnode with rfl | hnode
    · exact ⟨number, h v List.mem_cons_self⟩
    · exact ih (fun u hu => h u (List.mem_cons_of_mem v hu)) hnode

/-- The rows of roots are rows of vertices that are met. -/
theorem ShowsRoot.rows {a b : Node} (h : A.ShowsRoot seen a) (hb : b ∈ A.rows a) :
  A.Met b
  := by
  cases h with
  | module shows =>
    obtain ⟨number, answer⟩ := shows
    exact Met.rows ⟨number, .module answer⟩ hb
  | script _ shows =>
    obtain ⟨number, first, answer⟩ := shows
    have hb : b ∈ Node.numbered first _ ++ [] := hb
    rw [List.append_nil] at hb
    exact .of_mem_numbered (fun v hv => .script answer hv) hb

end Setting

/-! ### Roots -/

namespace Search

/-- How the children of a script are searched under a token. -/
def scriptChildrenUnder (path : Path) (d : Definition) (token : Token) : Search (List Vertex) := do
  let found ← (Finding.callSiteVertices d token).run
  match ← (Finding.contained found [] s!"while finding outbound connections of script {path}").run with
  | .ok vs => pure vs
  | .error _ => pure []

/-- The children of a script are what is found at its top level. -/
theorem result_scriptChildren (path : Path) (d : Definition) :
  (scriptChildren path d).result A = found ((Finding.callSiteVertices d (.root 0)).run.result A)
  := by
  have hreported (e : ProviderError) (context : String) :
      (do ExceptT.lift (report e context); pure [] : Finding (List Vertex)).run.result A = .ok [] := by
    rw [ExceptT.run_bind, result_bind, Finding.result_lift]
    rfl
  change (scriptChildrenUnder path d (.root 0)).result A = _
  rw [scriptChildrenUnder, result_bind]
  cases (Finding.callSiteVertices d (.root 0)).run.result A with
  | ok vs => rfl
  | error e =>
    rw [result_bind]
    cases e with
    | cancelled => rfl
    | _ =>
      rw [Finding.contained, hreported]
      · rfl
      · exact nofun

end Search

theorem Node.matches_numbered (m n : Nat) {vs us : List Vertex} (h : List.Forall₂ Vertex.Same vs us) :
  List.Forall₂ Node.Matches (numbered m vs) (numbered n us)
  := by
  induction h generalizing m n with
  | nil => exact .nil
  | cons hv _ ih => exact .cons (.analyzed m n hv) (ih (m + 1) (n + 1))

namespace Setting

variable (hA : Discreet A.answers)

include hA

theorem ShowsScript.matches {files files' : FileTree} {p q : Path} {a b : Node} (ha : A.ShowsScript files p a)
    (hb : A.ShowsScript files' q b) (hequal : Equal a.element b.element) :
  a.Matches b
  := by
  obtain ⟨m, k, answer⟩ := ha
  obtain ⟨n, l, answer'⟩ := hb
  rename_i d d'
  have hpath : Equal p q := (CallPosition.beq_iff.mp (Element.beq_iff.mp hequal).2.1).1
  have hd : Equal d d' := by
    have hanswers := hA.script p q A.searchPath hpath
    rw [answer, answer'] at hanswers
    cases hanswers with
    | ok related => exact related
  have hmatch := Finding.match_callSiteVertices hA (.root 0) (.root 0) hd
  unfold Finding.Match at hmatch
  refine .organizer m n hequal .nil (Node.matches_numbered k l ?_)
  rw [Search.result_scriptChildren, Search.result_scriptChildren]
  generalize (Finding.callSiteVertices d (.root 0)).run.result A = r,
    (Finding.callSiteVertices d' (.root 0)).run.result A = r' at hmatch
  cases hmatch with
  | ok hvs => exact hvs
  | error _ => exact .nil

/-- Roots that show equal elements match. -/
theorem ShowsRoot.matches (h : A.IsCoherent) {a b : Node} (ha : A.ShowsRoot seen a) (hb : A.ShowsRoot seen b)
    (hequal : Equal a.element b.element) :
  a.Matches b
  := by
  have hstart := (Element.beq_iff.mp hequal).2.2.2.2.2.2.1
  cases ha with
  | module shows =>
    cases hb with
    | module shows' =>
      obtain ⟨m, answer⟩ := shows
      obtain ⟨n, answer'⟩ := shows'
      exact h.matches ⟨m, .module answer⟩ ⟨n, .module answer'⟩ hequal
    | script _ shows' =>
      obtain ⟨m, answer⟩ := shows
      obtain ⟨n, k, answer'⟩ := shows'
      cases (CallPosition.beq_iff.mp (Element.beq_iff.mp hequal).2.1).2.1
  | script _ shows =>
    cases hb with
    | module shows' =>
      obtain ⟨m, k, answer⟩ := shows
      obtain ⟨n, answer'⟩ := shows'
      cases (CallPosition.beq_iff.mp (Element.beq_iff.mp hequal).2.1).2.1
    | script _ shows' => exact shows.matches hA shows' hequal

omit hA in
/-- A row of a node is matched by one of a node that matches. -/
theorem exists_row (hA : Discreet A.answers) {a b row : Node} (h : a.Matches b) (hrow : row ∈ A.rows b) :
  ∃ row' ∈ A.rows a, Equal row'.element row.element
  := by
  have hrows := h.rows hA
  obtain ⟨i, hi, rfl⟩ := List.getElem_of_mem hrow
  have hi' : i < (A.rows a).length := hrows.length_eq ▸ hi
  exact ⟨(A.rows a)[i], List.getElem_mem hi', (hrows.get hi' hi).element⟩

/-- From rows of vertices that are met a path can be followed if its first element is among theirs. -/
theorem IsCoherent.follows_of_met (h : A.IsCoherent) {nodes path : List Node} (hnodes : ∀ node ∈ nodes, A.Met node)
    (hpath : path.IsChain fun a b => b ∈ A.rows a)
    (hfirst : ∀ first ∈ path.head?, A.Met first ∧ ∃ node ∈ nodes, Equal node.element first.element) :
  A.Follows nodes (path.map Node.element)
  := by
  induction path generalizing nodes with
  | nil => trivial
  | cons first rest ih =>
    obtain ⟨hmet, hshown⟩ := hfirst first rfl
    refine ⟨hshown, fun node hnode hequal => ?_⟩
    apply ih (fun row hrow => (hnodes node hnode).rows hrow) hpath.of_cons
    intro second hhead
    have hrow := hpath.rel_head? hhead
    exact ⟨hmet.rows hrow, exists_row hA (h.matches (hnodes node hnode) hmet hequal) hrow⟩

/-- From roots a path that begins at a root can be followed if its first element is among theirs. -/
theorem IsCoherent.follows (h : A.IsCoherent) {nodes path : List Node} (hnodes : ∀ node ∈ nodes, A.ShowsRoot seen node)
    (hpath : path.IsChain fun a b => b ∈ A.rows a)
    (hfirst : ∀ first ∈ path.head?, A.ShowsRoot seen first ∧ ∃ node ∈ nodes, Equal node.element first.element) :
  A.Follows nodes (path.map Node.element)
  := by
  cases path with
  | nil => trivial
  | cons first rest =>
    obtain ⟨hroot, hshown⟩ := hfirst first rfl
    refine ⟨hshown, fun node hnode hequal => ?_⟩
    apply h.follows_of_met hA (fun row hrow => (hnodes node hnode).rows hrow) hpath.of_cons
    intro second hhead
    have hrow := hpath.rel_head? hhead
    exact ⟨hroot.rows hrow, exists_row hA ((hnodes node hnode).matches hA h hroot hequal) hrow⟩

end Setting

end CallGraph
