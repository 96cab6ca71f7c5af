import CallGraph.Proofs.Files.Spelling
import CallGraph.Proofs.Files.Walks

/-!
# Looking up equal paths

Spellings that are twins lead to the same place of a file tree.  Equal paths need not be twins, but a file is
found only by spellings that do not ask for a directory: if equal paths lead anywhere and one of them leads to
a file, they lead to the same place.
-/

namespace CallGraph

namespace FileTree

/-- The step that a component asks for. -/
def stepFor : Path.Component → Option Step
  | .up => some .up
  | .name text => some (.enter text)
  | _ => none

/-- The steps to what a path denotes, without a demand at their end. -/
def stepsTo (p : Path) : List Step :=
  p.components.filterMap stepFor

/-- The steps of a spelling are those of its components, and a demand if it asks for a directory. -/
theorem stepsOf_eq (p : Path) :
  stepsOf p.spelling = p.components.filterMap stepFor ++
    if p.asksForDirectory then [.demandDirectory] else []
  := by
  have hstep (piece : List Char) : (if piece == [] || piece == ['.'] then none
      else if piece == ['.', '.'] then some Step.up else some (Step.enter (String.ofList piece))) =
        (Path.componentOf piece).bind stepFor := by
    unfold Path.componentOf
    split
    · rfl
    · split <;> rfl
  obtain ⟨first, rest, hpieces⟩ := List.exists_cons_of_ne_nil (Path.pieces_ne_nil p.spelling.toList)
  have hsteps : (first :: rest).filterMap (fun piece => (Path.componentOf piece).bind stepFor) =
      p.components.filterMap stepFor := by
    rw [← List.filterMap_filterMap, Path.components, Path.componentsOf, hpieces]
    dsimp only
    split
    · rename_i hroot
      rw [Bool.and_eq_true, beq_iff_eq] at hroot
      rw [hroot.1]
      rfl
    · split
      · rename_i hhere
        rw [beq_iff_eq.mp hhere]
        rfl
      · rfl
  obtain ⟨last, hlast⟩ : ∃ last, (first :: rest).getLast? = some last :=
    ⟨_, List.getLast?_eq_some_getLast (List.cons_ne_nil _ _)⟩
  have hasks : p.asksForDirectory = (last == [] || last == ['.']) := by
    rw [Path.asksForDirectory, hpieces, hlast, Option.any_some, Bool.eq_iff_iff, Option.isNone_iff_eq_none,
      Path.componentOf_eq_none]
    simp
  unfold stepsOf
  simp only [hpieces, hlast, hstep, hsteps, hasks]
  split <;> simp

/-- Whether a component has a character of some sort in its name. -/
def mentions (P : Char → Bool) : Path.Component → Bool
  | .name text => text.toList.any P
  | _ => false

/-- Characters other than slashes and dots show in the components. -/
theorem any_spelling {P : Char → Bool} (hslash : P '/' = false) (hdot : P '.' = false) (p : Path) :
  p.spelling.toList.any P = p.components.any (mentions P)
  := by
  have hpieces (cs : List Char) : cs.any P = (Path.pieces cs).any (·.any P) := by
    induction cs with
    | nil => rfl
    | cons c cs ih =>
      obtain ⟨piece, rest, h⟩ := List.exists_cons_of_ne_nil (Path.pieces_ne_nil cs)
      by_cases hc : c = '/'
      · rw [hc, Path.pieces_slash, List.any_cons, hslash, List.any_cons, ih]
        rfl
      · rw [Path.pieces_cons hc h, List.any_cons, ih, h, List.any_cons, List.any_cons, List.any_cons,
          Bool.or_assoc]
  have hcomponent (piece : List Char) : (Path.componentOf piece).any (mentions P) = piece.any P := by
    cases hpiece : Path.componentOf piece with
    | none => rcases Path.componentOf_eq_none.mp hpiece with rfl | rfl <;> simp [hdot]
    | some c =>
      unfold Path.componentOf at hpiece
      split at hpiece
      · cases hpiece
      · split at hpiece
        · rename_i hup
          cases hpiece
          rw [beq_iff_eq.mp hup]
          simp [mentions, hdot]
        · cases hpiece
          simp [mentions]
  obtain ⟨first, rest, h⟩ := List.exists_cons_of_ne_nil (Path.pieces_ne_nil p.spelling.toList)
  have hinner (pieces : List (List Char)) :
      (pieces.filterMap Path.componentOf).any (mentions P) = pieces.any (·.any P) := by
    rw [List.any_filterMap]
    congr 1
    funext piece
    rw [← hcomponent piece]
    cases Path.componentOf piece <;> rfl
  rw [hpieces, Path.components, Path.componentsOf, h]
  dsimp only
  split
  · rename_i hroot
    rw [Bool.and_eq_true, beq_iff_eq] at hroot
    rw [List.any_cons, List.any_cons, hinner, hroot.1]
    rfl
  · split
    · rename_i hhere
      rw [List.any_cons, List.any_cons, hinner, beq_iff_eq.mp hhere]
      simp [mentions, hdot]
    · exact (hinner _).symm

theorem isAbsolute_congr {p q : Path} (h : (p == q) = true) :
  p.isAbsolute = q.isAbsolute
  := by
  rw [Bool.eq_iff_iff, Path.isAbsolute, Path.isAbsolute, beq_iff_eq, beq_iff_eq, ← Path.head?_componentsOf,
    ← Path.head?_componentsOf]
  exact Eq.congr_left (congrArg List.head? (Path.beq_iff.mp h))

/-- Twins lead to the same place. -/
theorem find_congr {t : FileTree} {p q : Path} (h : p.Twins q) (follow : Bool) :
  t.find p follow = t.find q follow
  := by
  have hcomponents := Path.beq_iff.mp h.equal
  have hempty : p.spelling.isEmpty = q.spelling.isEmpty := by
    have hnil : p.spelling.toList = [] ↔ q.spelling.toList = [] := by
      rw [← Path.componentsOf_eq_nil, ← Path.componentsOf_eq_nil]
      exact Eq.congr_left hcomponents
    rw [Bool.eq_iff_iff]
    simpa using hnil
  unfold find
  rw [any_spelling rfl rfl, any_spelling rfl rfl, hcomponents, hempty, isAbsolute_congr h.equal, stepsOf_eq,
    stepsOf_eq, hcomponents, h.asks]

theorem lookup_congr {t : FileTree} {p q : Path} (h : p.Twins q) :
  t.lookup p = t.lookup q
  := by
  rw [lookup, lookup, find_congr h]

theorem isFile_congr {t : FileTree} {p q : Path} (h : p.Twins q) :
  t.isFile p = t.isFile q
  := by
  rw [isFile, isFile, lookup_congr h]

theorem lookup_of_find {t : FileTree} {p : Path} {place : List String} {entry : Entry}
    (h : t.find p true = .ok (.present place entry)) :
  t.lookup p = .ok (place, entry)
  := by
  rw [lookup, h]
  rfl

/-- What is looked up is what is found. -/
theorem find_of_lookup {t : FileTree} {p : Path} {place : List String} {entry : Entry}
    (h : t.lookup p = .ok (place, entry)) :
  t.find p true = .ok (.present place entry)
  := by
  rw [lookup] at h
  cases hfind : t.find p true with
  | error e =>
    rw [hfind] at h
    cases h
  | ok found =>
    rw [hfind] at h
    cases found with
    | present place' entry' =>
      cases h
      rfl
    | absent place' => cases h

/-- What is looked up is where the way of the path ends. -/
theorem walks_of_lookup {t : FileTree} {p : Path} {place : List String} {entry : Entry}
    (h : t.lookup p = .ok (place, entry)) :
  t.Walks true 40 (t.origin p) (stepsOf p.spelling) (.present place entry)
  :=
  (find_eq_ok_iff.mp (find_of_lookup h)).2.2

/-- The last step enters a name only if the path ends in it. -/
theorem fileName?_of_getLast?_stepsOf {p : Path} {name : String}
    (h : (stepsOf p.spelling).getLast? = some (.enter name)) :
  p.fileName? = some name
  := by
  have hsteps : (p.components.filterMap stepFor).getLast? = some (.enter name) := by
    rw [stepsOf_eq] at h
    split at h
    · simp at h
    · rwa [List.append_nil] at h
  rw [Path.fileName?_eq_some]
  cases hcomponents : p.components using List.reverseRecOn with
  | nil =>
    rw [hcomponents] at hsteps
    cases hsteps
  | append_singleton before last =>
    rw [hcomponents, List.filterMap_append] at hsteps
    rw [List.getLast?_concat]
    by_cases hlast : last = .root ∨ last = .here
    · -- A root or a leading dot is the first component, so there is no step at all.
      cases before with
      | nil => rcases hlast with rfl | rfl <;> cases hsteps
      | cons first before =>
        have htail : last ∈ p.components.tail := by
          rw [hcomponents]
          simp
        obtain ⟨hroot, hhere⟩ := Path.of_mem_tail_components htail
        exact absurd hlast (not_or.mpr ⟨hroot, hhere⟩)
    · cases last with
      | root => exact absurd (.inl rfl) hlast
      | here => exact absurd (.inr rfl) hlast
      | up => simp [stepFor] at hsteps
      | name text =>
        have hstep : [Path.Component.name text].filterMap stepFor = [.enter text] := rfl
        rw [hstep, List.getLast?_concat] at hsteps
        cases hsteps
        rfl

/-- What leads to a file ends in a name. -/
theorem exists_fileName?_of_isFile {t : FileTree} {p : Path} (h : t.isFile p = true) :
  ∃ name, p.fileName? = some name
  := by
  by_contra hname
  unfold isFile at h
  split at h
  · rename_i place octets modified hlookup
    have hlast : ∀ name, (stepsOf p.spelling).getLast? ≠ some (.enter name) := fun name hlast =>
      hname ⟨name, fileName?_of_getLast?_stepsOf hlast⟩
    cases (walks_of_lookup hlookup).directory_of_last hlast
  · cases h

/-- A spelling that leads to a file does not ask for a directory. -/
theorem asksForDirectory_of_file {t : FileTree} {p : Path} {place : List String} {octets : ByteArray}
    {modified : Nat} (h : t.lookup p = .ok (place, .file octets modified)) :
  p.asksForDirectory = false
  := by
  have hway := walks_of_lookup h
  cases hasks : p.asksForDirectory with
  | false => rfl
  | true =>
    rw [stepsOf_eq, hasks, if_pos rfl] at hway
    cases hway.of_demandDirectory.1

/-- A spelling that leads to a file does not ask for a directory, and a spelling of an equal path that does
leads nowhere. -/
theorem twins_of_file {t : FileTree} {p q : Path} (h : (p == q) = true) {found : List String × Entry}
    (hp : t.lookup p = .ok found) {place : List String} {octets : ByteArray} {modified : Nat}
    (hq : t.lookup q = .ok (place, .file octets modified)) :
  p.Twins q
  := by
  have hway_p := walks_of_lookup hp
  have hway_q := walks_of_lookup hq
  have hasks_q := asksForDirectory_of_file hq
  refine ⟨h, ?_⟩
  cases hasks_p : p.asksForDirectory with
  | false => exact hasks_q.symm
  | true =>
    rw [stepsOf_eq, hasks_p, if_pos rfl] at hway_p
    rw [stepsOf_eq, hasks_q, if_neg Bool.false_ne_true, List.append_nil, origin, ← isAbsolute_congr h,
      ← Path.beq_iff.mp h] at hway_q
    -- Without the demand both spellings go the same way, which cannot end at a directory and at a file.
    cases hway_p.of_demandDirectory.2.unique hway_q

/-- Equal paths that lead anywhere, one of them to a file, lead to the same place. -/
theorem lookup_of_file {t : FileTree} {p q : Path} (h : (p == q) = true) {found : List String × Entry}
    (hp : t.lookup p = .ok found) {place : List String} {octets : ByteArray} {modified : Nat}
    (hq : t.lookup q = .ok (place, .file octets modified)) :
  t.lookup p = t.lookup q
  := by
  exact lookup_congr (twins_of_file h hp hq)

/-- Octets that are read stand in a file. -/
theorem exists_file_of_readOctets {t : FileTree} {p : Path} {octets : ByteArray} (h : t.readOctets p = .ok octets) :
  ∃ place modified, t.lookup p = .ok (place, .file octets modified)
  := by
  unfold readOctets at h
  cases hlookup : t.lookup p with
  | error e =>
    rw [hlookup] at h
    cases h
  | ok found =>
    obtain ⟨place, entry⟩ := found
    rw [hlookup] at h
    cases entry with
    | file octets' modified =>
      cases h
      exact ⟨place, modified, rfl⟩
    | directory => cases h
    | link target => cases h

/-- A text that is read stands in a file. -/
theorem exists_file_of_readText {t : FileTree} {p : Path} {text : String} (h : t.readText p = .ok text) :
  ∃ place octets modified, t.lookup p = .ok (place, .file octets modified)
  := by
  unfold readText at h
  cases hoctets : t.readOctets p with
  | error e =>
    rw [hoctets] at h
    cases h
  | ok octets =>
    obtain ⟨place, modified, hlookup⟩ := exists_file_of_readOctets hoctets
    exact ⟨place, octets, modified, hlookup⟩

/-- A text that is read from a file is read by every equal path that does not ask for a directory. -/
theorem readText_of_equal {t : FileTree} {p q : Path} {text : String} (hp : t.readText p = .ok text)
    (h : (p == q) = true) (hq : q.asksForDirectory = false) :
  t.readText q = .ok text
  := by
  obtain ⟨place, octets, modified, hlookup⟩ := exists_file_of_readText hp
  have htwins : p.Twins q := ⟨h, (asksForDirectory_of_file hlookup).trans hq.symm⟩
  rwa [readText, readOctets, lookup_congr htwins] at hp

end FileTree

end CallGraph
