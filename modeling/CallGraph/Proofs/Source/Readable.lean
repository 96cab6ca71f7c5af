import CallGraph.Proofs.Source.Bindings

/-!
# Files that can be read

A file can be read if it holds a text.  Where its functions and classes have their names does not depend on the
search path, which only gives the file the name of its module.  So a definition that was handed out is found again
in its file whatever search path came to be in use.
-/

namespace CallGraph.Source

variable {files : FileTree} {searchPath searchPath' : List Path}

/-! ### Scopes under another module name -/

/-- The name of the module shows in the imports only, before the parts of a construct are walked. -/
theorem Findings.record_module (f : Findings) (imports : List Import) (source : List Char) (module module' : String)
    (isPackage : Bool) (scope : Nat) (construct : Construct) (parts : Parts) :
  ∃ imports', Findings.record { f with imports } ⟨source, module', isPackage⟩ scope construct parts =
    { f.record ⟨source, module, isPackage⟩ scope construct parts with imports := imports' }
  := by
  have himports (module module' : Option String) : ∃ imports',
      Findings.addImports { f with imports } source module' parts =
        { f.addImports source module parts with imports := imports' } := by
    obtain ⟨before, hbefore⟩ := f.addImports_eq source module parts
    obtain ⟨after, hafter⟩ := Findings.addImports_eq { f with imports } source module' parts
    exact ⟨after, by rw [hafter, hbefore]⟩
  unfold Findings.record
  cases construct
  case call =>
    cases parts.find? .callee <;> exact ⟨imports, rfl⟩
  case decorator =>
    cases parts.firstNamed? with
    | none => exact ⟨imports, rfl⟩
    | some expression =>
      dsimp only
      split <;> exact ⟨imports, rfl⟩
  case importStatement => exact himports none none
  case importFrom =>
    cases parts.find? .module with
    | none => exact ⟨imports, rfl⟩
    | some spelled => exact himports _ _
  all_goals exact ⟨imports, rfl⟩

/-- The name of the module shows in the imports only. -/
theorem Tree.visit_module (source : List Char) (module module' : String) (isPackage : Bool) (t : Tree) (p : Place)
    (f : Findings) (imports : List Import) :
  ∃ imports', t.visit ⟨source, module', isPackage⟩ p { f with imports } =
    { t.visit ⟨source, module, isPackage⟩ p f with imports := imports' }
  := by
  apply @Tree.visit_induction ⟨source, module, isPackage⟩
    (fun t p f g => ∀ imports, ∃ imports',
      t.visit ⟨source, module', isPackage⟩ p { f with imports } = { g with imports := imports' })
    (fun parts around f g => ∀ imports, ∃ imports',
      parts.visit ⟨source, module', isPackage⟩ around { f with imports } = { g with imports := imports' })
    (fun parts p inner f g => ∀ imports, ∃ imports',
      parts.visitDefinition ⟨source, module', isPackage⟩ p inner { f with imports } =
        { g with imports := imports' })
  case identifier =>
    intro text extent p f imports
    exact ⟨imports, by rw [Tree.visit]; rfl⟩
  case token =>
    intro named text extent p f imports
    exact ⟨imports, by rw [Tree.visit]⟩
  case node =>
    intro construct extent parts p f g hopens h imports
    obtain ⟨imports', hrecord⟩ :=
      f.record_module imports source module module' isPackage p.scope construct parts
    rw [Tree.visit, hopens]
    dsimp only
    rw [hrecord]
    exact h imports'
  case definition =>
    intro construct extent parts kind name p f g hopens hname h imports
    rw [Tree.visit, hopens, hname]
    exact h imports
  case unnamed =>
    intro construct extent parts kind p f hopens hname imports
    exact ⟨imports, by rw [Tree.visit, hopens, hname]⟩
  case nil =>
    intro around f imports
    exact ⟨imports, by rw [Parts.visit]⟩
  case cons =>
    intro label tree rest around f g h htree hrest imports
    obtain ⟨imports', htree⟩ := htree imports
    rw [Parts.visit, htree]
    exact hrest imports'
  case definitionNil =>
    intro p inner f imports
    exact ⟨imports, by rw [Parts.visitDefinition]⟩
  case definitionName =>
    intro tree rest p inner f g h imports
    rw [Parts.visitDefinition_name]
    exact h imports
  case definitionCons =>
    intro label tree rest p inner f g h hlabel htree hrest imports
    obtain ⟨imports', htree⟩ := htree imports
    rw [Parts.visitDefinition_cons _ _ _ _ hlabel, htree]
    exact hrest imports'

/-- Under another module name the outline of a tree has the same functions and classes, and the same sites. -/
theorem Outline.ofTree_module (path : Path) (module module' : String) (source : List Char) (tree : Tree) :
  (ofTree path module' source tree).scopes.drop 1 = (ofTree path module source tree).scopes.drop 1 ∧
    (ofTree path module' source tree).sites = (ofTree path module source tree).sites
  := by
  obtain ⟨imports, h⟩ :=
    tree.visit_module source module module' (path.fileStem? == some "__init__") {} {} []
  have hscopes : (tree.visit ⟨source, module', path.fileStem? == some "__init__"⟩ {} {}).scopes =
      (tree.visit ⟨source, module, path.fileStem? == some "__init__"⟩ {} {}).scopes := by
    rw [h]
  have hsites : (tree.visit ⟨source, module', path.fileStem? == some "__init__"⟩ {} {}).sites =
      (tree.visit ⟨source, module, path.fileStem? == some "__init__"⟩ {} {}).sites := by
    rw [h]
  constructor
  · exact congrArg List.reverse hscopes
  · exact congrArg (fun sites : List Site => sites.reverse.mergeSort fun a b => a.start.notAfter b.start) hsites

/-! ### Readable files -/

/-- A file that holds a text. -/
def Readable (files : FileTree) (p : Path) : Prop :=
  ∃ source, textNow files p = some source

instance (files : FileTree) (p : Path) : Decidable (Readable files p) :=
  decidable_of_iff ((textNow files p).isSome = true) Option.isSome_iff_exists

/-- A file can be read by every path that leads to it. -/
theorem Readable.of_lookup {p q : Path} (h : Readable files p) (hlookup : files.lookup q = files.lookup p) :
  Readable files q
  := by
  obtain ⟨source, htext⟩ := h
  exact ⟨source, by rw [← htext, textNow, textNow, FileTree.readOctets, FileTree.readOctets, hlookup]⟩

/-- A file that can be read is found where a file is. -/
theorem Readable.exists_lookup {p : Path} (h : Readable files p) :
  ∃ place octets modified, files.lookup p = .ok (place, .file octets modified)
  := by
  obtain ⟨source, htext⟩ := h
  unfold textNow at htext
  split at htext
  · rename_i octets hread
    obtain ⟨place, modified, hlookup⟩ := FileTree.exists_file_of_readOctets hread
    exact ⟨place, octets, modified, hlookup⟩
  · cases htext

theorem Readable.congr {p q : Path} (h : Readable files p) (hsame : files.Same p q) :
  Readable files q
  :=
  h.of_lookup hsame.lookup.symm

variable [Parser]

/-- Under any search path a file is read if it is under another one, its functions and classes have their names
at the same places, and its sites are the same. -/
theorem outlineNow_searchPath {p : Path} {o : Outline} (h : outlineNow files searchPath p = .ok o)
    (searchPath' : List Path) :
  ∃ o', outlineNow files searchPath' p = .ok o' ∧ (∀ d, o'.scopeOf d = o.scopeOf d) ∧ o'.sites = o.sites
  := by
  obtain ⟨source, htext, rfl⟩ := exists_text_of_outlineNow h
  obtain ⟨hscopes, hsites⟩ := Outline.ofTree_module p (moduleNameOf files searchPath p)
    (moduleNameOf files searchPath' p) source.toList (Parser.tree source.toList)
  refine ⟨_, outlineNow_of_text htext, fun d => ?_, hsites⟩
  rw [Outline.scopeOf, Outline.scopeOf, Outline.scopeNamedAt, Outline.scopeNamedAt, Outline.ofSource, Outline.ofSource,
    hscopes]

theorem readable_of_outlineNow {p : Path} {o : Outline} (h : outlineNow files searchPath p = .ok o) :
  Readable files p
  := by
  obtain ⟨source, htext, _⟩ := exists_text_of_outlineNow h
  exact ⟨source, htext⟩

theorem Readable.outlineNow {p : Path} (h : Readable files p) (searchPath : List Path) :
  ∃ o, outlineNow files searchPath p = .ok o
  := by
  obtain ⟨source, htext⟩ := h
  exact ⟨_, outlineNow_of_text htext⟩

end CallGraph.Source
