import CallGraph.Proofs.Files.Replacing
import CallGraph.Source.Survey

/-!
# Dotted names and the files they stand for

The parts of a dotted name are the names on the way from an entry of a search path to the file of the module.  The
file is found in its package under the last part and `.py`, or else under the marker of the package with that name,
wherever one of them stands below the place of the entry.
-/

namespace CallGraph

/-- A part of a dotted name. -/
structure IsNamePart (part : String) : Prop where
  nonempty : part ≠ ""
  plain : ∀ c ∈ part.toList, c ≠ '.' ∧ c ≠ '/' ∧ c.toNat ≠ 0

instance (part : String) : Decidable (IsNamePart part) :=
  haveI := List.decidableBAll (fun c => c ≠ '.' ∧ c ≠ '/' ∧ c.toNat ≠ 0) part.toList
  decidable_of_iff (part ≠ "" ∧ ∀ c ∈ part.toList, c ≠ '.' ∧ c ≠ '/' ∧ c.toNat ≠ 0)
    ⟨fun h => ⟨h.1, h.2⟩, fun h => ⟨h.nonempty, h.plain⟩⟩

/-- The name of a module in a package, each given by its parts. -/
structure IsModuleName (name : String) (package : List String) (last : String) : Prop where
  spelled : name = ".".intercalate (package ++ [last])
  parts : ∀ part ∈ package ++ [last], IsNamePart part

namespace IsNamePart

variable {part : String} (h : IsNamePart part)

include h

theorem dotless :
  '.' ∉ part.toList
  :=
  fun hmem => (h.plain '.' hmem).1 rfl

theorem isFileName :
  FileTree.IsFileName part
  := by
  have hnonempty : part.toList ≠ [] := fun hnil => h.nonempty (String.toList_eq_nil_iff.mp hnil)
  have hdotless := h.dotless
  refine ⟨⟨fun hmem => (h.plain '/' hmem).2.1 rfl, ?_⟩, ?_⟩
  · rw [Path.componentOf, if_neg, if_neg, String.ofList_toList]
    · rw [beq_iff_eq]
      intro heq
      simp [heq] at hdotless
    · rw [Bool.or_eq_true, beq_iff_eq, beq_iff_eq]
      rintro (heq | heq)
      · exact hnonempty heq
      · simp [heq] at hdotless
  · rw [List.any_eq_false]
    intro c hc
    simpa using (h.plain c hc).2.2

/-- A part is the name of a source file once it has the ending of one. -/
theorem isFileName_source :
  FileTree.IsFileName (part ++ ".py")
  := by
  have hending : (part ++ ".py").toList = part.toList ++ ['.', 'p', 'y'] := String.toList_append
  refine ⟨⟨?_, ?_⟩, ?_⟩
  · rw [hending, List.mem_append, not_or]
    exact ⟨fun hmem => (h.plain '/' hmem).2.1 rfl, by decide⟩
  · have hlength : 3 ≤ (part ++ ".py").toList.length := by simp [hending]
    rw [Path.componentOf, if_neg, if_neg, String.ofList_toList]
    · rw [beq_iff_eq]
      intro heq
      simp [heq] at hlength
    · rw [Bool.or_eq_true, beq_iff_eq, beq_iff_eq]
      rintro (heq | heq) <;> simp [heq] at hlength
  · rw [hending, List.any_append, Bool.or_eq_false_iff, List.any_eq_false]
    refine ⟨fun c hc => ?_, by decide⟩
    simpa using (h.plain c hc).2.2

end IsNamePart

/-! ### Parts and endings -/

/-- The parts of a dotted name are those it was put together of. -/
theorem Source.dottedParts_intercalate {parts : List String} (hne : parts ≠ [])
    (hdotless : ∀ part ∈ parts, '.' ∉ part.toList) :
  dottedParts (".".intercalate parts) = parts
  := by
  have hgo {cs : List Char} (hcs : '.' ∉ cs) : dottedParts.go cs = [cs] ∧
      ∀ ds, dottedParts.go (cs ++ '.' :: ds) = cs :: dottedParts.go ds := by
    induction cs with
    | nil =>
      refine ⟨rfl, fun ds => ?_⟩
      rw [List.nil_append, dottedParts.go]
      cases hds : dottedParts.go ds with
      | nil =>
        cases ds with
        | nil => cases hds
        | cons d ds =>
          rw [dottedParts.go] at hds
          split at hds
          · cases hds
          · split at hds <;> cases hds
      | cons part rest => rfl
    | cons c cs ih =>
      rw [List.mem_cons, not_or] at hcs
      obtain ⟨hone, hmore⟩ := ih hcs.2
      have hc : (c == '.') = false := by simpa using Ne.symm hcs.1
      constructor
      · rw [dottedParts.go, hone]
        dsimp only
        rw [hc, if_neg Bool.false_ne_true]
      · intro ds
        rw [List.cons_append, dottedParts.go, hmore]
        dsimp only
        rw [hc, if_neg Bool.false_ne_true]
  have hparts : dottedParts.go (".".intercalate parts).toList = parts.map String.toList := by
    induction parts with
    | nil => exact absurd rfl hne
    | cons part parts ih =>
      obtain ⟨hpart, hparts⟩ := List.forall_mem_cons.mp hdotless
      cases parts with
      | nil =>
        rw [String.intercalate_singleton]
        exact (hgo hpart).1
      | cons next parts =>
        have hspelled : (".".intercalate (part :: next :: parts)).toList =
            part.toList ++ '.' :: (".".intercalate (next :: parts)).toList := by
          rw [String.intercalate_cons_cons, String.toList_append, String.toList_append, List.append_assoc]
          rfl
        rw [hspelled, (hgo hpart).2, ih (List.cons_ne_nil _ _) hparts]
        rfl
  rw [dottedParts, hparts, List.map_map]
  exact List.map_id'' (fun part => String.ofList_toList) parts

theorem IsModuleName.dottedParts_eq {name : String} {package : List String} {last : String}
    (h : IsModuleName name package last) :
  Source.dottedParts name = package ++ [last]
  := by
  rw [h.spelled]
  exact Source.dottedParts_intercalate (by simp) fun part hpart => (h.parts part hpart).dotless

theorem dropEnding_append (s ending : String) :
  dropEnding ending (s ++ ending) = s
  := by
  have hsuffix : ending.toList.isSuffixOf (s ++ ending).toList = true := by
    rw [List.isSuffixOf_iff_suffix, String.toList_append]
    exact List.suffix_append _ _
  have hlength : (s ++ ending).toList.length - ending.length = s.toList.length := by
    rw [String.toList_append, List.length_append, String.length_toList, String.length_toList, Nat.add_sub_cancel]
  rw [dropEnding, if_pos hsuffix, hlength, String.toList_append, List.take_left, String.ofList_toList]

theorem dropEnding_of_not_suffix {s ending : String} (h : ¬ ending.toList <:+ s.toList) :
  dropEnding ending s = s
  := by
  rw [dropEnding, if_neg]
  rwa [List.isSuffixOf_iff_suffix]

/-- What stands behind the last dot of a text. -/
def lastPart (s : String) : List Char :=
  (s.toList.reverse.takeWhile (· != '.')).reverse

/-- Behind a dot, or nothing, a text without dots is the last part. -/
theorem lastPart_append {before part : String} (hpart : '.' ∉ part.toList)
    (hbefore : before = "" ∨ ∃ s, before = s ++ ".") :
  lastPart (before ++ part) = part.toList
  := by
  have hall : ∀ c ∈ part.toList.reverse, (c != '.') = true := by
    intro c hc
    rw [bne_iff_ne]
    rintro rfl
    exact hpart (List.mem_reverse.mp hc)
  have hnone : (before.toList.reverse).takeWhile (· != '.') = [] := by
    rcases hbefore with rfl | ⟨s, rfl⟩
    · rfl
    · rw [String.toList_append, List.reverse_append]
      rfl
  rw [lastPart, String.toList_append, List.reverse_append, List.takeWhile_append_of_pos hall, hnone, List.append_nil,
    List.reverse_reverse]

/-- The last part put behind the others, or alone. -/
theorem intercalate_concat (parts : List String) (last : String) :
  ∃ before, ".".intercalate (parts ++ [last]) = before ++ last ∧
    (before = "" ∨ ∃ s, before = s ++ ".") ∧ (parts ≠ [] → before = ".".intercalate parts ++ ".")
  := by
  cases parts with
  | nil => exact ⟨"", by simp, .inl rfl, fun h => absurd rfl h⟩
  | cons part parts =>
    refine ⟨".".intercalate (part :: parts) ++ ".", ?_, .inr ⟨_, rfl⟩, fun _ => rfl⟩
    rw [String.intercalate_append_of_ne_nil (by simp) (by simp), String.intercalate_singleton]

/-- What is added to the last part is added to the name. -/
theorem intercalate_concat_append (parts : List String) (last ending : String) :
  ".".intercalate (parts ++ [last ++ ending]) = ".".intercalate (parts ++ [last]) ++ ending
  := by
  cases parts with
  | nil => simp
  | cons part parts =>
    rw [String.intercalate_append_of_ne_nil (by simp) (by simp),
      String.intercalate_append_of_ne_nil (by simp) (by simp), String.intercalate_singleton,
      String.intercalate_singleton, ← String.append_assoc]

theorem lastPart_intercalate (parts : List String) {last : String} (hlast : '.' ∉ last.toList) :
  lastPart (".".intercalate (parts ++ [last])) = last.toList
  := by
  obtain ⟨before, hspelled, hbefore, -⟩ := intercalate_concat parts last
  rw [hspelled, lastPart_append hlast hbefore]

/-- Only a name with that last part ends with a dot and a text. -/
theorem dropEnding_intercalate (parts : List String) {last ending : String} (hlast : '.' ∉ last.toList)
    (hending : '.' ∉ ending.toList) (hne : last ≠ ending) :
  dropEnding ("." ++ ending) (".".intercalate (parts ++ [last])) = ".".intercalate (parts ++ [last])
  := by
  apply dropEnding_of_not_suffix
  rintro ⟨before, hbefore⟩
  have hspelled : ".".intercalate (parts ++ [last]) = String.ofList before ++ "." ++ ending := by
    apply String.toList_injective
    rw [← hbefore, String.toList_append, String.toList_append, String.toList_append,
      String.toList_ofList (l := before), List.append_assoc]
  have hpart := lastPart_intercalate parts hlast
  rw [hspelled, lastPart_append hending (.inr ⟨_, rfl⟩)] at hpart
  exact hne (String.toList_injective hpart.symm)

/-- Only a name with that last part is the name of a marker. -/
theorem dropEnding_marker (parts : List String) {last : String} (hdotless : '.' ∉ last.toList)
    (hlast : last ≠ "__init__") :
  dropEnding ".__init__" (".".intercalate (parts ++ [last])) = ".".intercalate (parts ++ [last])
  :=
  dropEnding_intercalate parts hdotless (by decide) hlast

/-! ### Names below a path -/

/-- Names that are entered one after the other are components behind those of the path. -/
theorem Path.foldl_child_spec (d : Path) {names : List String} (h : ∀ name ∈ names, IsEntryName name) :
  (names.foldl Path.child d).components = d.components ++ names.map .name ∧
    (names ≠ [] → (names.foldl Path.child d).asksForDirectory = false) ∧
    (names.foldl Path.child d).isAbsolute = d.isAbsolute
  := by
  induction names using List.reverseRecOn with
  | nil => simp
  | append_singleton names name ih =>
    rw [List.forall_mem_append, List.forall_mem_singleton] at h
    obtain ⟨hcomponents, -, habsolute⟩ := ih h.1
    obtain ⟨hchild, hasks, hrelative⟩ := (names.foldl Path.child d).child_spec h.2
    rw [List.foldl_append, List.foldl_cons, List.foldl_nil, hchild, hcomponents, hrelative, habsolute]
    simp [hasks]

/-- A name without dots has no extension. -/
theorem Path.splitName_dotless {name : List Char} (h : '.' ∉ name) :
  (splitName name).1 = name
  := by
  have hall : ∀ c ∈ name.reverse, (c != '.') = true := by
    intro c hc
    rw [bne_iff_ne]
    rintro rfl
    exact h (List.mem_reverse.mp hc)
  rw [splitName]
  split
  · rfl
  · rw [List.takeWhile_eq_self_iff.mpr hall]
    simp

/-- A text that begins with a name has the same components behind something else. -/
theorem Path.innerComponents_eq {p : Path} {name : String} (h : p.components.head? = some (.name name)) :
  innerComponents p.spelling.toList = p.components
  := by
  obtain ⟨first, rest, hpieces⟩ := List.exists_cons_of_ne_nil (pieces_ne_nil p.spelling.toList)
  rw [components, componentsOf, hpieces] at h
  rw [components, componentsOf, innerComponents, hpieces]
  dsimp only at h ⊢
  split
  case isTrue hroot =>
    rw [if_pos hroot] at h
    cases h
  case isFalse hroot =>
    rw [if_neg hroot] at h
    split
    case isTrue hhere =>
      rw [if_pos hhere] at h
      cases h
    case isFalse => rfl

/-- A path followed by names is followed by them one after the other. -/
theorem Path.twins_join_names {d : Path} (hd : d.spelling.isEmpty = false) {names : List String} (hne : names ≠ [])
    (h : ∀ name ∈ names, IsEntryName name) :
  (d.join (names.foldl Path.child ⟨""⟩)).Twins (names.foldl Path.child d)
  := by
  obtain ⟨first, rest, rfl⟩ := List.exists_cons_of_ne_nil hne
  obtain ⟨hcomponents, hasks, habsolute⟩ := Path.foldl_child_spec ⟨""⟩ h
  obtain ⟨hcomponents', hasks', -⟩ := Path.foldl_child_spec d h
  have hspelled : d.spelling.toList ≠ [] := by simpa using hd
  obtain ⟨hjoin, hjoined⟩ := @Path.join_spec d _ hspelled habsolute
  have hinner : innerComponents ((first :: rest).foldl Path.child ⟨""⟩).spelling.toList =
      (first :: rest).map .name := by
    have hhead : ((first :: rest).foldl Path.child ⟨""⟩).components.head? = some (.name first) := by
      rw [hcomponents]
      rfl
    rw [Path.innerComponents_eq hhead, hcomponents]
    rfl
  refine ⟨Path.beq_iff.mpr ?_, ?_⟩
  · rw [hjoin, hinner, hcomponents']
  · rw [hjoined, hasks hne, hasks' hne]

/-- A path made of names is spelled by the root and the names with slashes between them. -/
theorem Path.ofNames_concat (names : List String) (name : String) :
  Path.ofNames (names ++ [name]) =
    ⟨if names = [] then "/" ++ name else (Path.ofNames names).spelling ++ "/" ++ name⟩
  := by
  cases names with
  | nil => simp [Path.ofNames]
  | cons first names =>
    rw [if_neg (by simp), Path.ofNames, Path.ofNames, String.intercalate_append_of_ne_nil (by simp) (by simp),
      String.intercalate_singleton, ← String.append_assoc, ← String.append_assoc]

/-- Names that are entered from the root make up the path made of them. -/
theorem Path.foldl_child_root {names : List String} (h : ∀ name ∈ names, IsEntryName name) :
  names.foldl Path.child ⟨"/"⟩ = Path.ofNames names
  := by
  induction names using List.reverseRecOn with
  | nil => rfl
  | append_singleton names name ih =>
    rw [List.forall_mem_append, List.forall_mem_singleton] at h
    have hrelative : (Path.mk name).isAbsolute = false := by
      rw [Path.isAbsolute, beq_eq_false_iff_ne]
      exact fun hhead => h.2.1 (List.mem_of_mem_head? hhead)
    rw [List.foldl_append, List.foldl_cons, List.foldl_nil, ih h.1, child, join, hrelative,
      if_neg Bool.false_ne_true, ofNames_concat]
    cases names using List.reverseRecOn with
    | nil => rfl
    | append_singleton names last =>
      -- The path before ends in a name, so a slash comes between.
      have hlast : IsEntryName last := h.1 last (by simp)
      obtain ⟨before, hspelled⟩ : ∃ before, (Path.ofNames (names ++ [last])).spelling = before ++ last := by
        rw [ofNames_concat]
        dsimp only
        split <;> exact ⟨_, rfl⟩
      obtain ⟨cs, c, hchars⟩ : ∃ cs c, last.toList = cs ++ [c] := by
        cases hchars : last.toList using List.reverseRecOn with
        | nil => simp [IsEntryName, hchars, Path.componentOf] at hlast
        | append_singleton cs c => exact ⟨cs, c, rfl⟩
      have hc : c ≠ '/' := by
        rintro rfl
        exact hlast.1 (by simp [hchars])
      have hopen : ((before ++ last).isEmpty || (before ++ last).toList.getLast? == some '/') = false := by
        rw [Bool.or_eq_false_iff, beq_eq_false_iff_ne, String.toList_append, hchars, ← List.append_assoc, List.getLast?_concat]
        refine ⟨?_, by simpa using hc⟩
        rw [← Bool.not_eq_true, String.isEmpty_iff, ← String.toList_eq_nil_iff, String.toList_append, hchars]
        simp
      rw [hspelled, hopen, if_neg Bool.false_ne_true, if_neg (by simp)]

namespace FileTree

variable {t : FileTree} {d : Path} {directory : List String}

/-- A path leads on into a directory. -/
theorem Leads.child {name : String} (h : t.Leads d directory) (hname : IsFileName name)
    (hentry : t.entry? (directory ++ [name]) = some .directory) :
  t.Leads (d.child name) (directory ++ [name])
  := by
  have hfind : t.find (d.child name) true = .ok (t.foundAt (directory ++ [name])) := by
    apply h.find_child hname.isEntryName hname.named
    intro _ target hlink
    rw [hentry] at hlink
    cases hlink
  rw [foundAt, hentry] at hfind
  exact leads_of_lookup (lookup_of_find hfind)

theorem Leads.descend {names : List String} (h : t.Leads d directory) (hsound : t.IsSound)
    (hnames : ∀ name ∈ names, IsFileName name) (hentry : t.entry? (directory ++ names) = some .directory) :
  t.Leads (names.foldl Path.child d) (directory ++ names)
  := by
  induction names using List.reverseRecOn with
  | nil => rwa [List.append_nil]
  | append_singleton names name ih =>
    rw [List.forall_mem_append, List.forall_mem_singleton] at hnames
    rw [← List.append_assoc] at hentry
    rw [List.foldl_append, ← List.append_assoc]
    exact (ih hnames.1 (hsound.parent hentry)).child hnames.2 hentry

/-- Down through directories a path leads to the file that stands there. -/
theorem Leads.lookup_file {names : List String} (h : t.Leads d directory) (hsound : t.IsSound) (hne : names ≠ [])
    (hnames : ∀ name ∈ names, IsFileName name) {octets : ByteArray} {modified : Nat}
    (hentry : t.entry? (directory ++ names) = some (.file octets modified)) :
  t.lookup (names.foldl Path.child d) = .ok (directory ++ names, .file octets modified)
  := by
  cases names using List.reverseRecOn with
  | nil => exact absurd rfl hne
  | append_singleton names name =>
    rw [List.forall_mem_append, List.forall_mem_singleton] at hnames
    rw [← List.append_assoc] at hentry
    have hleads := h.descend hsound hnames.1 (hsound.parent hentry)
    have hmost : t.HoldsFileAtMost (directory ++ names ++ [name]) := by
      intro entry hentry'
      rw [hentry] at hentry'
      exact ⟨octets, modified, (Option.some.inj hentry').symm⟩
    have hfind := hleads.find_file hnames.2 hmost
    rw [foundAt, hentry] at hfind
    rw [List.foldl_append, ← List.append_assoc]
    exact lookup_of_find hfind

/-- A child that is no link is looked up in the directory. -/
theorem Leads.lookup_child {name : String} (h : t.Leads d directory) (hname : IsFileName name) {entry : Entry}
    (hentry : t.entry? (directory ++ [name]) = some entry) (hlink : ∀ target, entry ≠ .link target) :
  t.lookup (d.child name) = .ok (directory ++ [name], entry)
  := by
  have hfind : t.find (d.child name) true = .ok (t.foundAt (directory ++ [name])) := by
    apply h.find_child hname.isEntryName hname.named
    intro _ target htarget
    rw [hentry] at htarget
    exact hlink target (Option.some.inj htarget)
  rw [foundAt, hentry] at hfind
  exact lookup_of_find hfind

/-- The path made of the names of a place leads to the file there. -/
theorem lookup_ofNames (hsound : t.IsSound) {place : List String} {octets : ByteArray} {modified : Nat}
    (hentry : t.entry? place = some (.file octets modified)) (hnames : ∀ name ∈ place, IsFileName name) :
  t.lookup (Path.ofNames place) = .ok (place, .file octets modified)
  := by
  have hroot : t.lookup ⟨"/"⟩ = .ok ([], .directory) := rfl
  have hne : place ≠ [] := by
    rintro rfl
    cases hentry
  rw [← Path.foldl_child_root fun name hname => (hnames name hname).isEntryName]
  exact (leads_of_lookup hroot).lookup_file hsound hne hnames hentry

end FileTree

/-! ### The file of a module below an entry -/

namespace Source.Survey

/-- The names from an entry of a search path to the file of a module: to a file of its own, or to a marker. -/
def moduleSteps (package : List String) (last : String) : List (List String) :=
  [package ++ [last ++ ".py"], package ++ [last, packageMarker]]

variable {files : FileTree} {name : String} {package : List String} {last : String} {e : Path}

theorem isFileName_of_mem_moduleSteps (h : IsModuleName name package last) {steps : List String}
    (hsteps : steps ∈ moduleSteps package last) :
  ∀ step ∈ steps, FileTree.IsFileName step
  := by
  have hparts := h.parts
  rw [List.forall_mem_append, List.forall_mem_singleton] at hparts
  have hmarker : FileTree.IsFileName packageMarker := ⟨⟨by decide, by decide⟩, by decide⟩
  have hpackage : ∀ step ∈ package, FileTree.IsFileName step := fun step hstep => (hparts.1 step hstep).isFileName
  simp only [moduleSteps, List.mem_cons, List.not_mem_nil, or_false] at hsteps
  rcases hsteps with rfl | rfl
  · rw [List.forall_mem_append, List.forall_mem_singleton]
    exact ⟨hpackage, hparts.2.isFileName_source⟩
  · rw [List.forall_mem_append, List.forall_mem_cons, List.forall_mem_singleton]
    exact ⟨hpackage, hparts.2.isFileName, hmarker⟩

/-- A path with the parts of a name, and the two paths at which the file of the module is looked for. -/
theorem twins_candidates (h : IsModuleName name package last) (he : e.spelling.isEmpty = false) :
  let base := e.join ((package ++ [last]).foldl Path.child ⟨""⟩)
  base.fileName? = some last ∧
    (base.withExtension "py").Twins ((package ++ [last ++ ".py"]).foldl Path.child e) ∧
    (base.child packageMarker).Twins ((package ++ [last, packageMarker]).foldl Path.child e)
  := by
  intro base
  have hnames : ∀ part ∈ package ++ [last], IsEntryName part := fun part hpart =>
    (h.parts part hpart).isFileName.isEntryName
  have hsteps {steps : List String} (hsteps : steps ∈ moduleSteps package last) : ∀ step ∈ steps, IsEntryName step :=
    fun step hstep => (isFileName_of_mem_moduleSteps h hsteps step hstep).isEntryName
  have hcomponents : base.components = e.components ++ (package ++ [last]).map .name := by
    rw [Path.beq_iff.mp (Path.twins_join_names he (by simp) hnames).equal, (Path.foldl_child_spec e hnames).1]
  have hname : base.fileName? = some last := by
    rw [Path.fileName?_eq_some, hcomponents]
    simp
  have hstem : String.ofList (Path.splitName last.toList).1 = last := by
    rw [Path.splitName_dotless (h.parts last (by simp)).dotless, String.ofList_toList]
  obtain ⟨hfile, hfileAsks⟩ := @Path.withExtension_spec base last "py" hname (by decide) (by decide)
  obtain ⟨hmarker, hmarkerAsks, -⟩ := @Path.child_spec base packageMarker ⟨by decide, by decide⟩
  have hmem : package ++ [last ++ ".py"] ∈ moduleSteps package last := List.mem_cons_self
  have hmem' : package ++ [last, packageMarker] ∈ moduleSteps package last :=
    List.mem_cons_of_mem _ List.mem_cons_self
  obtain ⟨hfile', hfileAsks', -⟩ := Path.foldl_child_spec e (hsteps hmem)
  obtain ⟨hmarker', hmarkerAsks', -⟩ := Path.foldl_child_spec e (hsteps hmem')
  refine ⟨hname, ⟨Path.beq_iff.mpr ?_, ?_⟩, ⟨Path.beq_iff.mpr ?_, ?_⟩⟩
  · rw [hfile, hfile', hcomponents, hstem]
    simp [← List.append_assoc, String.append_assoc]
  · rw [hfileAsks, hfileAsks' (by simp)]
  · rw [hmarker, hmarker', hcomponents]
    simp
  · rw [hmarkerAsks, hmarkerAsks' (by simp)]

variable {root : List String}

/-- A path with the parts of a name that leads to a file does so down from where its entry leads to. -/
theorem lookup_candidate (h : IsModuleName name package last) (hsound : files.IsSound)
    (hroot : files.lookup e = .ok (root, .directory)) {steps : List String} (hsteps : steps ∈ moduleSteps package last)
    {octets : ByteArray} {modified : Nat} (hentry : files.entry? (root ++ steps) = some (.file octets modified))
    {p : Path} (hp : p.Twins (steps.foldl Path.child e)) :
  files.lookup p = .ok (root ++ steps, .file octets modified)
  := by
  have hne : steps ≠ [] := by
    rintro rfl
    simp [moduleSteps] at hsteps
  rw [FileTree.lookup_congr hp]
  exact (FileTree.leads_of_lookup hroot).lookup_file hsound hne (isFileName_of_mem_moduleSteps h hsteps) hentry

/-- The file of a module is found below every entry that leads to the same place. -/
theorem isSome_moduleFileIn (h : IsModuleName name package last) (hsound : files.IsSound)
    (hroot : files.lookup e = .ok (root, .directory)) {steps : List String} (hsteps : steps ∈ moduleSteps package last)
    {octets : ByteArray} {modified : Nat} (hentry : files.entry? (root ++ steps) = some (.file octets modified)) :
  (moduleFileIn files name e).isSome = true
  := by
  have hspelled := (FileTree.spelled_of_find (FileTree.find_of_lookup hroot)).2
  obtain ⟨-, hfile, hmarker⟩ := twins_candidates h hspelled
  have hisFile {p : Path} (hp : p.Twins (steps.foldl Path.child e)) : files.isFile p = true := by
    rw [FileTree.isFile, lookup_candidate h hsound hroot hsteps hentry hp]
  rw [moduleFileIn, h.dottedParts_eq]
  split
  case isTrue => rfl
  case isFalse hnone =>
    simp only [moduleSteps, List.mem_cons, List.not_mem_nil, or_false] at hsteps
    rcases hsteps with rfl | rfl
    · exact absurd (hisFile hfile) hnone
    · rw [if_pos (hisFile hmarker)]
      rfl

/-- A source file under the name of a module is the file of the module. -/
theorem exists_moduleFileIn_source (h : IsModuleName name package last) (hsound : files.IsSound)
    (hroot : files.lookup e = .ok (root, .directory)) {octets : ByteArray} {modified : Nat}
    (hentry : files.entry? (root ++ (package ++ [last ++ ".py"])) = some (.file octets modified)) :
  ∃ p, moduleFileIn files name e = some p ∧
    files.lookup p = .ok (root ++ (package ++ [last ++ ".py"]), .file octets modified)
  := by
  have hspelled := (FileTree.spelled_of_find (FileTree.find_of_lookup hroot)).2
  obtain ⟨-, hfile, -⟩ := twins_candidates h hspelled
  have hlookup := lookup_candidate h hsound hroot List.mem_cons_self hentry hfile
  refine ⟨_, ?_, hlookup⟩
  rw [moduleFileIn, h.dottedParts_eq]
  rw [if_pos]
  rw [FileTree.isFile, hlookup]

/-- The marker of a package is the file of the module, if there is no source file of this name beside the package. -/
theorem exists_moduleFileIn_marker (h : IsModuleName name package last) (he : e.spelling.isEmpty = false)
    (hmarker : files.isFile ((package ++ [last, packageMarker]).foldl Path.child e) = true)
    (hbeside : files.isFile ((package ++ [last ++ ".py"]).foldl Path.child e) = false) :
  ∃ p, moduleFileIn files name e = some p ∧
    files.lookup p = files.lookup ((package ++ [last, packageMarker]).foldl Path.child e)
  := by
  obtain ⟨-, htwin, htwin'⟩ := twins_candidates h he
  rw [← FileTree.isFile_congr htwin] at hbeside
  rw [← FileTree.isFile_congr htwin'] at hmarker
  refine ⟨_, ?_, FileTree.lookup_congr htwin'⟩
  rw [moduleFileIn, h.dottedParts_eq, hbeside, if_neg Bool.false_ne_true, if_pos hmarker]

/-- A file of a module has the last part of its name for a stem, or it is a marker. -/
theorem cases_of_moduleFileIn (h : IsModuleName name package last) (he : e.spelling.isEmpty = false) {p : Path}
    (hp : moduleFileIn files name e = some p) :
  p.components = e.components ++ (package ++ [last ++ ".py"]).map .name ∧ stemOf p = last ∨
    p.components = e.components ++ (package ++ [last, packageMarker]).map .name ∧ stemOf p = "__init__"
  := by
  obtain ⟨-, hfile, hmarker⟩ := twins_candidates h he
  have hspec {p : Path} {steps : List String} (hsteps : steps ∈ moduleSteps package last)
      (hp : p.Twins (steps.foldl Path.child e)) : p.components = e.components ++ steps.map .name := by
    rw [Path.beq_iff.mp hp.equal]
    exact (Path.foldl_child_spec e fun step hstep =>
      (isFileName_of_mem_moduleSteps h hsteps step hstep).isEntryName).1
  have hfileName {p : Path} (before : List String) {name : String}
      (hp : p.components = e.components ++ (before ++ [name]).map .name) : p.fileName? = some name := by
    rw [Path.fileName?_eq_some, hp]
    simp
  rw [moduleFileIn, h.dottedParts_eq] at hp
  split at hp
  case isTrue =>
    cases hp
    have hcomponents := hspec List.mem_cons_self hfile
    refine .inl ⟨hcomponents, ?_⟩
    have hnonempty : last.toList ≠ [] := fun hnil =>
      (h.parts last (by simp)).nonempty (String.toList_eq_nil_iff.mp hnil)
    have hsplit : Path.splitName (last ++ ".py").toList = (last.toList, some "py".toList) := by
      rw [String.toList_append]
      exact Path.splitName_append hnonempty (by decide) (by decide)
    rw [stemOf, Path.fileStem?, hfileName package hcomponents, Option.map_some, hsplit]
    exact String.ofList_toList
  case isFalse =>
    split at hp
    case isFalse => cases hp
    case isTrue =>
      cases hp
      have hcomponents := hspec (List.mem_cons_of_mem _ List.mem_cons_self) hmarker
      refine .inr ⟨hcomponents, ?_⟩
      have hname : (e.join ((package ++ [last]).foldl Path.child ⟨""⟩) |>.child packageMarker).fileName? =
          some packageMarker := by
        apply hfileName (package ++ [last])
        rw [hcomponents, List.append_assoc]
        rfl
      rw [stemOf, Path.fileStem?, hname]
      decide

end Source.Survey

end CallGraph
