import CallGraph.Files.Tree
import CallGraph.Proofs.Path
import Mathlib.Data.List.TakeWhile

/-!
# Spellings of paths

What a path denotes is its list of components, but paths are joined, cut and extended by their spellings.
The components of the result are found here from the components of what it is made of, so that equal paths
give equal results.  Beyond its components only one thing of a spelling matters: whether it asks for a
directory at its end.
-/

namespace CallGraph

namespace Path

/-! ### Pieces -/

theorem pieces_ne_nil (cs : List Char) :
  pieces cs ≠ []
  := by
  cases cs with
  | nil => simp [pieces]
  | cons c cs =>
    unfold pieces
    split
    · simp
    · split <;> simp

theorem pieces_cons {c : Char} (hc : c ≠ '/') {cs piece : List Char} {rest : List (List Char)}
    (h : pieces cs = piece :: rest) :
  pieces (c :: cs) = (c :: piece) :: rest
  := by
  simp [pieces, h, hc]

theorem pieces_slash (cs : List Char) :
  pieces ('/' :: cs) = [] :: pieces cs
  := by
  obtain ⟨piece, rest, h⟩ := List.exists_cons_of_ne_nil (pieces_ne_nil cs)
  simp [pieces, h]

/-- A slash parts the pieces before it from those behind it. -/
theorem pieces_append_slash (cs ds : List Char) :
  pieces (cs ++ '/' :: ds) = pieces cs ++ pieces ds
  := by
  induction cs with
  | nil => exact pieces_slash ds
  | cons c cs ih =>
    by_cases hc : c = '/'
    · subst hc
      rw [List.cons_append, pieces_slash, pieces_slash, ih, List.cons_append]
    · obtain ⟨piece, rest, h⟩ := List.exists_cons_of_ne_nil (pieces_ne_nil cs)
      rw [List.cons_append, pieces_cons hc h, List.cons_append, pieces_cons hc]
      rw [ih, h, List.cons_append]

/-- A text without slashes is a single piece. -/
theorem pieces_of_notMem {cs : List Char} (h : '/' ∉ cs) :
  pieces cs = [cs]
  := by
  induction cs with
  | nil => rfl
  | cons c cs ih =>
    rw [List.mem_cons, not_or] at h
    exact pieces_cons (Ne.symm h.1) (ih h.2)

theorem pieces_eq_nil_singleton {cs : List Char} (h : pieces cs = [[]]) :
  cs = []
  := by
  cases cs with
  | nil => rfl
  | cons c cs =>
    obtain ⟨piece, rest, hcs⟩ := List.exists_cons_of_ne_nil (pieces_ne_nil cs)
    by_cases hc : c = '/'
    · subst hc
      rw [pieces_slash, hcs] at h
      cases h
    · rw [pieces_cons hc hcs] at h
      cases h

/-! ### Components -/

/-- A piece stands for a component unless it is empty or a `.`. -/
theorem componentOf_eq_none {piece : List Char} :
  componentOf piece = none ↔ piece = [] ∨ piece = ['.']
  := by
  unfold componentOf
  split
  · rename_i h
    simpa using h
  · rename_i h
    rw [Bool.or_eq_true, beq_iff_eq, beq_iff_eq] at h
    split <;> simp [h]

theorem componentOf_ne_root (piece : List Char) :
  componentOf piece ≠ some .root
  := by
  unfold componentOf
  split
  · simp
  · split <;> simp

/-- The components of a text that follows a slash. -/
def innerComponents (cs : List Char) : List Component :=
  (pieces cs).filterMap componentOf

theorem componentsOf_slash (cs : List Char) :
  componentsOf ('/' :: cs) = .root :: innerComponents cs
  := by
  have hne := pieces_ne_nil cs
  simp [componentsOf, pieces_slash, innerComponents, hne]

/-- The components of a text with a slash in it that is not its first character. -/
theorem componentsOf_append_slash {cs : List Char} (hcs : cs ≠ []) (ds : List Char) :
  componentsOf (cs ++ '/' :: ds) = componentsOf cs ++ innerComponents ds
  := by
  obtain ⟨first, rest, h⟩ := List.exists_cons_of_ne_nil (pieces_ne_nil cs)
  have hrest : first = [] → rest ≠ [] := by
    rintro rfl rfl
    exact hcs (pieces_eq_nil_singleton h)
  have hne := pieces_ne_nil ds
  simp only [componentsOf, pieces_append_slash, h, List.cons_append, innerComponents]
  by_cases hfirst : first = []
  · simp [hfirst, hrest hfirst]
  · by_cases hhere : first = ['.']
    · simp [hhere]
    · simp only [beq_iff_eq, hhere, if_false, Bool.false_and, beq_eq_false_iff_ne.mpr hfirst,
        Bool.false_eq_true]
      rw [← List.cons_append, List.filterMap_append]

/-- The components of a single piece. -/
theorem componentsOf_piece {piece : List Char} (h : '/' ∉ piece) :
  componentsOf piece = if piece = ['.'] then [.here] else (componentOf piece).toList
  := by
  simp only [componentsOf, pieces_of_notMem h, List.isEmpty_nil, Bool.not_true, Bool.and_false,
    Bool.false_eq_true, if_false, beq_iff_eq, List.filterMap_nil]
  split
  · rfl
  · cases hpiece : componentOf piece <;> simp [hpiece]

/-- A text that is empty or ends in a slash. -/
def IsOpen (cs : List Char) : Prop :=
  cs = [] ∨ ∃ ds, cs = ds ++ ['/']

theorem getLast?_pieces_append {before piece : List Char} (hbefore : IsOpen before) (hpiece : '/' ∉ piece) :
  (pieces (before ++ piece)).getLast? = some piece
  := by
  rcases hbefore with rfl | ⟨cs, rfl⟩
  · rw [List.nil_append, pieces_of_notMem hpiece]
    rfl
  · rw [List.append_assoc, List.singleton_append, pieces_append_slash, pieces_of_notMem hpiece,
      List.getLast?_concat]

/-- The components of a piece behind other ones. -/
theorem componentsOf_append_piece {before piece : List Char} (hbefore : IsOpen before) (hpiece : '/' ∉ piece)
    (hhere : before = [] → piece ≠ ['.']) :
  componentsOf (before ++ piece) = componentsOf before ++ (componentOf piece).toList
  := by
  have hinner : innerComponents piece = (componentOf piece).toList := by
    rw [innerComponents, pieces_of_notMem hpiece]
    cases hpiece : componentOf piece <;> simp [hpiece]
  rcases hbefore with rfl | ⟨cs, rfl⟩
  · rw [List.nil_append, componentsOf_piece hpiece, if_neg (hhere rfl)]
    rfl
  · rw [List.append_assoc, List.singleton_append]
    cases cs with
    | nil =>
      rw [List.nil_append, List.nil_append, componentsOf_slash, hinner, componentsOf_slash]
      rfl
    | cons c cs =>
      have hnil : innerComponents [] = [] := rfl
      rw [componentsOf_append_slash (by simp), componentsOf_append_slash (by simp), hnil, hinner,
        List.append_nil]

/-- Only the empty text has no components. -/
theorem componentsOf_eq_nil {cs : List Char} :
  componentsOf cs = [] ↔ cs = []
  := by
  constructor
  · intro h
    obtain ⟨first, rest, hcs⟩ := List.exists_cons_of_ne_nil (pieces_ne_nil cs)
    simp only [componentsOf, hcs] at h
    split at h
    · cases h
    · rename_i hroot
      split at h
      · cases h
      · rename_i hhere
        rw [List.filterMap_eq_nil_iff] at h
        rw [beq_iff_eq] at hhere
        obtain rfl : first = [] := (componentOf_eq_none.mp (h first List.mem_cons_self)).resolve_right hhere
        obtain rfl : rest = [] := by simpa using hroot
        exact pieces_eq_nil_singleton hcs
  · rintro rfl
    rfl

/-- The components show whether a text starts at the root. -/
theorem head?_componentsOf (cs : List Char) :
  (componentsOf cs).head? = some .root ↔ cs.head? = some '/'
  := by
  cases cs with
  | nil => simp [componentsOf, pieces, componentOf]
  | cons c cs =>
    by_cases hc : c = '/'
    · subst hc
      simp [componentsOf_slash]
    · obtain ⟨piece, rest, h⟩ := List.exists_cons_of_ne_nil (pieces_ne_nil cs)
      have hempty : ((c :: piece : List Char) == []) = false := rfl
      simp only [componentsOf, pieces_cons hc h, List.head?_cons, Option.some.injEq, hc, iff_false, hempty,
        Bool.false_and, Bool.false_eq_true, if_false]
      split
      · simp
      · rename_i hhere
        intro hhead
        rw [List.filterMap_cons] at hhead
        cases hcomponent : componentOf (c :: piece) with
        | none =>
          rw [beq_iff_eq] at hhere
          rcases componentOf_eq_none.mp hcomponent with hnil | hdot
          · cases hnil
          · exact hhere hdot
        | some component =>
          rw [hcomponent] at hhead
          cases hhead
          exact componentOf_ne_root _ hcomponent

/-! ### Cutting -/

/-- A slash or `.` piece at the end of a text gives no component. -/
theorem componentsOf_append_open (cs : List Char) :
  (cs ≠ [] → componentsOf (cs ++ ['/']) = componentsOf cs) ∧
    componentsOf (cs ++ ['/', '.']) = componentsOf (cs ++ ['/'])
  := by
  cases cs with
  | nil => exact ⟨fun h => absurd rfl h, rfl⟩
  | cons c cs =>
    have hcs : c :: cs ≠ [] := List.cons_ne_nil _ _
    rw [componentsOf_append_slash hcs, componentsOf_append_slash hcs]
    exact ⟨fun _ => List.append_nil _, rfl⟩

/-- Dropping slashes and `.` pieces at the end leaves the components. -/
theorem componentsOf_trimReversed (fuel : Nat) (cs : List Char) :
  componentsOf (trimReversed fuel cs).reverse = componentsOf cs.reverse
  := by
  fun_induction trimReversed fuel cs with
  | case1 cs => rfl
  | case2 fuel => rfl
  | case3 fuel cs hempty => rw [List.isEmpty_iff.mp hempty]
  | case4 fuel cs hempty ih =>
    have hcs : cs.reverse ≠ [] := by simpa using hempty
    rw [ih, List.reverse_cons, (componentsOf_append_open cs.reverse).1 hcs]
  | case5 fuel cs ih =>
    rw [ih, List.reverse_cons, List.reverse_cons, List.reverse_cons, List.append_assoc]
    exact (componentsOf_append_open cs.reverse).2.symm
  | case6 => rfl

@[simp]
theorem componentsOf_trimmed (cs : List Char) :
  componentsOf (trimmed cs) = componentsOf cs
  := by
  rw [trimmed, componentsOf_trimReversed, List.reverse_reverse]

/-- A reversed text that is a slash, or has no slash and no `.` piece behind a slash at its end. -/
def IsTrimmed (cs : List Char) : Prop :=
  cs = ['/'] ∨ (cs.head? ≠ some '/' ∧ ¬ ['.', '/'] <+: cs)

theorem isTrimmed_trimReversed {fuel : Nat} {cs : List Char} (h : cs.length ≤ fuel) :
  IsTrimmed (trimReversed fuel cs)
  := by
  fun_induction trimReversed fuel cs with
  | case1 cs =>
    rw [Nat.le_zero, List.length_eq_zero_iff] at h
    subst h
    exact .inr (by simp)
  | case2 fuel => exact .inr (by simp)
  | case3 fuel cs hempty => exact .inl rfl
  | case4 fuel cs hempty ih => exact ih (Nat.le_of_succ_le_succ h)
  | case5 fuel cs ih => exact ih (Nat.le_of_succ_le_succ h)
  | case6 fuel cs hfuel hnil hslash hdot =>
    refine .inr ⟨?_, ?_⟩
    · intro hhead
      obtain ⟨n, rfl⟩ := Nat.exists_eq_succ_of_ne_zero hnil
      obtain ⟨ds, rfl⟩ := List.head?_eq_some_iff.mp hhead
      exact hslash n ds rfl rfl
    · rintro ⟨ds, rfl⟩
      obtain ⟨n, rfl⟩ := Nat.exists_eq_succ_of_ne_zero hnil
      exact hdot n ds rfl rfl

theorem isTrimmed_trimmed (cs : List Char) :
  IsTrimmed (trimmed cs).reverse
  := by
  rw [trimmed, List.reverse_reverse]
  apply isTrimmed_trimReversed
  simp only [List.length_reverse]
  omega

/-- A trimmed text stays as it is when it is trimmed. -/
theorem trimReversed_of_isTrimmed {fuel : Nat} {cs : List Char} (h : IsTrimmed cs) :
  trimReversed fuel cs = cs
  := by
  unfold trimReversed
  split
  · rfl
  · rfl
  · rename_i n ds
    split
    · rename_i hempty
      rw [List.isEmpty_iff.mp hempty]
    · rename_i hempty
      rcases h with h | ⟨h, -⟩
      · exact absurd (by simpa using h) (by simpa using hempty)
      · exact absurd rfl h
  · rename_i n ds
    rcases h with h | ⟨-, h⟩
    · cases h
    · exact absurd ⟨ds, rfl⟩ h
  · rfl

theorem trimmed_trimmed (cs : List Char) :
  trimmed (trimmed cs) = trimmed cs
  := by
  rw [trimmed.eq_def (trimmed cs), trimReversed_of_isTrimmed (isTrimmed_trimmed cs), List.reverse_reverse]

/-- A trimmed text with something in it but the root ends in a piece, which is a `.` only if it is alone. -/
theorem IsTrimmed.lastPiece {cs : List Char} (h : IsTrimmed cs) (hnil : cs ≠ []) (hroot : cs ≠ ['/']) :
  cs.takeWhile (· != '/') ≠ [] ∧ (cs.takeWhile (· != '/') = ['.'] → cs.dropWhile (· != '/') = [])
  := by
  obtain ⟨hhead, hdot⟩ := h.resolve_left hroot
  obtain ⟨c, ds, rfl⟩ := List.exists_cons_of_ne_nil hnil
  have hc : (c != '/') = true := by simpa using hhead
  simp only [List.takeWhile_cons, List.dropWhile_cons, hc, if_true]
  refine ⟨List.cons_ne_nil _ _, fun heq => ?_⟩
  obtain ⟨rfl, hds⟩ := List.cons_eq_cons.mp heq
  cases ds with
  | nil => rfl
  | cons d ds =>
    have hd : d = '/' := by
      by_contra hd
      simp [hd] at hds
    exact absurd ⟨ds, by simp [hd]⟩ hdot

/-- A text whose last component is not the root is, once trimmed, its last piece behind what is left when the
last component is taken off. -/
structure IsCut (cs before piece : List Char) (last : Component) : Prop where
  trimmed : trimmed cs = before ++ piece
  before_open : IsOpen before
  plain : '/' ∉ piece
  dropped : dropTrailing (· != '/') (Path.trimmed cs) = before
  components : componentsOf cs = componentsOf before ++ [last]
  component : componentOf piece = some last ∨ last = .here

theorem exists_isCut {cs : List Char} {last : Component} (hlast : (componentsOf cs).getLast? = some last)
    (hroot : last ≠ .root) :
  ∃ before piece, IsCut cs before piece last
  := by
  let piece := ((trimmed cs).reverse.takeWhile (· != '/')).reverse
  let before := ((trimmed cs).reverse.dropWhile (· != '/')).reverse
  have htrimmed : trimmed cs = before ++ piece := by
    rw [← List.reverse_append, List.takeWhile_append_dropWhile, List.reverse_reverse]
  have hopen : IsOpen before := by
    cases hdrop : (trimmed cs).reverse.dropWhile (· != '/') with
    | nil => exact .inl (by simp [before, hdrop])
    | cons c ds =>
      have hc : c = '/' := by
        have hhead := List.head?_dropWhile_not (· != '/') (trimmed cs).reverse
        rw [hdrop] at hhead
        simpa using hhead
      exact .inr ⟨ds.reverse, by simp [before, hdrop, hc]⟩
  have hplain : '/' ∉ piece := by
    intro hmem
    have hne := List.mem_takeWhile_imp (List.mem_reverse.mp hmem)
    cases hne
  have hcomponents := componentsOf_trimmed cs
  rw [← hcomponents] at hlast
  have hnil : (trimmed cs).reverse ≠ [] := by
    intro hnil
    rw [List.reverse_eq_nil_iff.mp hnil] at hlast
    cases hlast
  have hslash : (trimmed cs).reverse ≠ ['/'] := by
    intro hslash
    rw [List.reverse_eq_iff.mp hslash] at hlast
    cases hlast
    exact hroot rfl
  obtain ⟨hpiece, halone⟩ := (isTrimmed_trimmed cs).lastPiece hnil hslash
  rw [htrimmed] at hcomponents hlast
  by_cases hhere : before = [] ∧ piece = ['.']
  · rw [hhere.1, hhere.2] at hlast
    cases hlast
    refine ⟨before, piece, htrimmed, hopen, hplain, rfl, ?_, .inr rfl⟩
    rw [← hcomponents, hhere.1, hhere.2]
    rfl
  · rw [componentsOf_append_piece hopen hplain fun h h' => hhere ⟨h, h'⟩] at hcomponents hlast
    cases hcomponent : componentOf piece with
    | some c =>
      rw [hcomponent] at hcomponents hlast
      rw [Option.toList_some, List.getLast?_concat] at hlast
      cases hlast
      exact ⟨before, piece, htrimmed, hopen, hplain, rfl, hcomponents.symm, .inl hcomponent⟩
    | none =>
      exfalso
      rcases componentOf_eq_none.mp hcomponent with hempty | hdot
      · exact hpiece (List.reverse_eq_nil_iff.mp hempty)
      · have hdrop := halone (List.reverse_eq_iff.mp hdot)
        exact hhere ⟨by simp [before, hdrop], hdot⟩

/-! ### Parents, extensions and joins -/

/-- The parent has the components of the path but the last, if that is not the root. -/
theorem map_components_parent? (p : Path) :
  p.parent?.map components = match p.components.getLast? with
    | none => none
    | some .root => none
    | some _ => some p.components.dropLast
  := by
  unfold parent?
  cases hlast : p.components.getLast? with
  | none => rfl
  | some last =>
    by_cases hroot : last = .root
    · subst hroot
      rfl
    obtain ⟨before, piece, hcut⟩ := exists_isCut hlast hroot
    have hparent : components ⟨String.ofList (trimmed before)⟩ = p.components.dropLast := by
      simp only [components, String.toList_ofList, componentsOf_trimmed, hcut.components, List.dropLast_concat]
    simp only [hcut.dropped, Option.map_some, hparent]

/-- Whether a spelling asks for a directory: it ends in an empty piece or in a `.`. -/
def asksForDirectory (p : Path) : Bool :=
  (pieces p.spelling.toList).getLast?.any fun piece => (componentOf piece).isNone

/-- The stem of a name is what is left of it without the extension and its dot. -/
theorem splitName_fst (name : List Char) :
  ∃ cut ≤ name.length, (splitName name).1 = name.take (name.length - cut) ∧
    cut = (match (splitName name).2 with
      | none => 0
      | some after => after.length + 1)
  := by
  unfold splitName
  split
  · exact ⟨0, by simp⟩
  · dsimp only
    split
    · exact ⟨0, by simp⟩
    · rename_i hafter
      simp only [Bool.or_eq_true, not_or, beq_iff_eq] at hafter
      have hle : ((name.reverse.takeWhile (· != '.')).reverse).length ≤ name.length := by
        simpa using (List.takeWhile_sublist (· != '.') (l := name.reverse)).length_le
      exact ⟨_, Nat.lt_of_le_of_ne hle hafter.1, rfl, rfl⟩

/-- A name that is not empty has a stem. -/
theorem splitName_fst_ne_nil {name : List Char} (h : name ≠ []) :
  (splitName name).1 ≠ []
  := by
  unfold splitName
  split
  · exact h
  · dsimp only
    split
    · exact h
    · rename_i hstem
      simp only [Bool.or_eq_true, not_or] at hstem
      simpa using hstem.2

/-- A name with an extension is cut before the dot of the extension. -/
theorem splitName_append {stem after : List Char} (hstem : stem ≠ []) (hafter : after ≠ []) (hdot : '.' ∉ after) :
  splitName (stem ++ '.' :: after) = (stem, some after)
  := by
  have hlong : (stem ++ '.' :: after == ['.', '.']) = false := by
    rw [beq_eq_false_iff_ne]
    intro heq
    have hlength := congrArg List.length heq
    have hstem_pos := List.length_pos_iff.mpr hstem
    have hafter_pos := List.length_pos_iff.mpr hafter
    simp only [List.length_append, List.length_cons, List.length_nil] at hlength
    omega
  have hbehind : ((stem ++ '.' :: after).reverse.takeWhile (· != '.')).reverse = after := by
    have hall : ∀ c ∈ after.reverse, (c != '.') = true := by
      intro c hc
      rw [bne_iff_ne]
      rintro rfl
      exact hdot (List.mem_reverse.mp hc)
    rw [List.reverse_append, List.reverse_cons, List.append_assoc, List.takeWhile_append_of_pos hall,
      List.singleton_append, List.takeWhile_cons_of_neg (by simp), List.append_nil, List.reverse_reverse]
  have hbefore : (stem ++ '.' :: after).take ((stem ++ '.' :: after).length - after.length - 1) = stem := by
    have hlength : (stem ++ '.' :: after).length - after.length - 1 = stem.length := by
      simp only [List.length_append, List.length_cons]
      omega
    rw [hlength, List.take_left]
  have hshorter : (after.length == (stem ++ '.' :: after).length) = false := by
    rw [beq_eq_false_iff_ne, List.length_append, List.length_cons]
    omega
  have hnonempty : stem.isEmpty = false := by simpa using hstem
  simp only [splitName, hlong, hbehind, hbefore, hshorter, hnonempty, Bool.or_self, Bool.false_eq_true, if_false]

/-- Only a name with a dot behind a stem has an extension. -/
theorem eq_append_of_splitName {name stem after : List Char} (h : splitName name = (stem, some after)) :
  name = stem ++ '.' :: after ∧ stem ≠ []
  := by
  unfold splitName at h
  split at h
  case isTrue => cases h
  case isFalse =>
    dsimp only at h
    split at h
    case isTrue => cases h
    case isFalse hcut =>
      obtain ⟨hstem, hafter⟩ := Prod.mk.inj h
      rw [Option.some.inj hafter] at hstem hcut
      rw [hstem, Bool.or_eq_true, not_or, beq_iff_eq, List.isEmpty_iff] at hcut
      refine ⟨?_, hcut.2⟩
      have hsplit := List.takeWhile_append_dropWhile (p := (· != '.')) (l := name.reverse)
      cases hbefore : name.reverse.dropWhile (· != '.') with
      | nil =>
        rw [hbefore, List.append_nil] at hsplit
        rw [hsplit, List.reverse_reverse] at hafter
        exact absurd (congrArg List.length (Option.some.inj hafter)).symm hcut.1
      | cons c before =>
        have hdot : c = '.' := by
          have hhead := List.head_dropWhile_not (· != '.') (l := name.reverse) (by simp [hbefore])
          simpa [hbefore] using hhead
        have hname : name = before.reverse ++ '.' :: after := by
          rw [hbefore, hdot, ← List.reverse_reverse (name.reverse.takeWhile _), Option.some.inj hafter] at hsplit
          rw [← List.reverse_reverse name, ← hsplit]
          simp
        have hlength : name.length - after.length - 1 = before.reverse.length := by
          rw [hname, List.length_append, List.length_cons]
          omega
        rw [hlength, hname, List.take_left] at hstem
        rw [hname, hstem]

theorem eq_of_componentOf {piece : List Char} {name : String} (h : componentOf piece = some (.name name)) :
  piece = name.toList ∧ piece ≠ []
  := by
  unfold componentOf at h
  split at h
  · cases h
  · split at h
    · cases h
    · rename_i hempty _
      cases h
      simp only [Bool.or_eq_true, beq_iff_eq, not_or] at hempty
      exact ⟨by simp, hempty.1⟩

theorem fileName?_eq_some {p : Path} {name : String} :
  p.fileName? = some name ↔ p.components.getLast? = some (.name name)
  := by
  unfold fileName?
  split <;> simp_all

/-- Another extension changes the last name only, and leaves no slash behind it. -/
theorem withExtension_spec {p : Path} {name extension : String} (hname : p.fileName? = some name)
    (hext : '/' ∉ extension.toList) (hne : extension ≠ "") :
  (p.withExtension extension).components = p.components.dropLast ++
      [.name (String.ofList (splitName name.toList).1 ++ "." ++ extension)] ∧
    (p.withExtension extension).asksForDirectory = false
  := by
  have hlast := fileName?_eq_some.mp hname
  obtain ⟨before, piece, hcut⟩ := exists_isCut hlast (by simp)
  obtain ⟨rfl, hpiece⟩ := eq_of_componentOf (hcut.component.resolve_right (by simp))
  obtain ⟨cut, hle, hstem, hcutoff⟩ := splitName_fst name.toList
  have hstem_ne := splitName_fst_ne_nil hpiece
  have hstem_plain : '/' ∉ (splitName name.toList).1 := by
    rw [hstem]
    exact fun hmem => hcut.plain (List.mem_of_mem_take hmem)
  have hbody : (before ++ name.toList).take ((before ++ name.toList).length - cut) =
      before ++ (splitName name.toList).1 := by
    rw [List.length_append, Nat.add_sub_assoc hle, List.take_length_add_append, ← hstem]
  rcases hsplit : splitName name.toList with ⟨stem, after⟩
  rw [hsplit] at hcutoff hstem_ne hstem_plain hbody
  dsimp only at hstem_ne hstem_plain hbody hcutoff ⊢
  have hempty : stem.isEmpty = false := by simpa using hstem_ne
  have hspelling : (p.withExtension extension).spelling.toList =
      before ++ (stem ++ '.' :: extension.toList) := by
    have hextends : (stem.isEmpty || extension.isEmpty) = false := by
      rw [hempty, Bool.false_or]
      simpa using hne
    subst hcutoff
    simp only [withExtension, hname, hsplit, hextends, hcut.trimmed, Bool.false_eq_true, if_false]
    exact (congrArg (fun body => (String.ofList body ++ "." ++ extension).toList) hbody).trans (by simp)
  have hplain : '/' ∉ stem ++ '.' :: extension.toList := by
    simpa [not_or] using ⟨hstem_plain, hext⟩
  have hlong : 3 ≤ (stem ++ '.' :: extension.toList).length := by
    have hstem_pos := List.length_pos_iff.mpr hstem_ne
    have hext_pos : 0 < extension.toList.length := by
      rw [List.length_pos_iff]
      simpa using hne
    simp only [List.length_append, List.length_cons]
    omega
  have hcomponent : componentOf (stem ++ '.' :: extension.toList) =
      some (.name (String.ofList stem ++ "." ++ extension)) := by
    have hshort (short : List Char) (h : short.length < 3) : (stem ++ '.' :: extension.toList == short) = false := by
      rw [beq_eq_false_iff_ne]
      rintro rfl
      omega
    rw [componentOf, hshort [] (by simp), hshort ['.'] (by simp), hshort ['.', '.'] (by simp)]
    simp [← String.toList_inj]
  constructor
  · rw [components, hspelling, componentsOf_append_piece hcut.before_open hplain]
    · rw [hcomponent, components, hcut.components, List.dropLast_concat]
      rfl
    · intro _ heq
      rw [heq] at hlong
      simp at hlong
  · rw [asksForDirectory, hspelling, getLast?_pieces_append hcut.before_open hplain]
    simp [hcomponent]

/-- Behind the first component there are only names and `..`. -/
theorem of_mem_tail_components {p : Path} {c : Component} (h : c ∈ p.components.tail) :
  c ≠ .root ∧ c ≠ .here
  := by
  have hpieces (pieces : List (List Char)) (h : c ∈ pieces.filterMap componentOf) :
      c ≠ .root ∧ c ≠ .here := by
    obtain ⟨piece, _, hpiece⟩ := List.mem_filterMap.mp h
    unfold componentOf at hpiece
    split at hpiece
    · cases hpiece
    · split at hpiece <;> cases hpiece <;> simp
  rw [components, componentsOf] at h
  split at h
  · cases h
  · rename_i first rest _
    split at h
    · exact hpieces rest h
    · split at h
      · exact hpieces rest h
      · exact hpieces (first :: rest) (List.mem_of_mem_tail h)

/-- A path with another extension has this extension. -/
theorem extension?_withExtension {p : Path} {name extension : String} (hname : p.fileName? = some name)
    (hslash : '/' ∉ extension.toList) (hdot : '.' ∉ extension.toList) (hne : extension ≠ "") :
  (p.withExtension extension).extension? = some extension
  := by
  have hlast := fileName?_eq_some.mp hname
  have hcomponents := (withExtension_spec hname hslash hne).1
  have hfile := fileName?_eq_some.mpr ((congrArg List.getLast? hcomponents).trans List.getLast?_concat)
  obtain ⟨before, piece, hcut⟩ := exists_isCut hlast (by simp)
  obtain ⟨rfl, hpiece⟩ := eq_of_componentOf (hcut.component.resolve_right (by simp))
  have hchars : (String.ofList (splitName name.toList).1 ++ "." ++ extension).toList =
      (splitName name.toList).1 ++ '.' :: extension.toList := by
    simp
  rw [extension?, hfile, Option.bind_some, hchars,
    splitName_append (splitName_fst_ne_nil hpiece) (by simpa using hne) hdot]
  simp

/-- A relative path behind another one adds its components, and asks for what it asks for alone. -/
theorem join_spec {base more : Path} (hbase : base.spelling.toList ≠ []) (hmore : more.isAbsolute = false) :
  (base.join more).components = base.components ++ innerComponents more.spelling.toList ∧
    (base.join more).asksForDirectory = more.asksForDirectory
  := by
  have hempty : base.spelling.isEmpty = false := by simpa using hbase
  have hspelling : ∃ cs, (base.join more).spelling.toList = cs ++ '/' :: more.spelling.toList ∧
      componentsOf (cs ++ ['/']) = base.components := by
    unfold join
    rw [hmore, hempty, if_neg (by simp), Bool.false_or]
    split
    · rename_i hlast
      obtain ⟨cs, hcs⟩ := List.getLast?_eq_some_iff.mp (beq_iff_eq.mp hlast)
      exact ⟨cs, by simp [hcs], by rw [components, hcs]⟩
    · exact ⟨base.spelling.toList, by simp, (componentsOf_append_open _).1 hbase⟩
  obtain ⟨cs, hspelling, hcomponents⟩ := hspelling
  constructor
  · rw [components, hspelling, ← hcomponents]
    cases cs with
    | nil => rw [List.nil_append, List.nil_append, componentsOf_slash, componentsOf_slash]; rfl
    | cons c cs =>
      rw [componentsOf_append_slash (by simp), componentsOf_append_slash (by simp), List.append_assoc]
      rfl
  · have hne := pieces_ne_nil more.spelling.toList
    rw [asksForDirectory, hspelling, pieces_append_slash, List.getLast?_append, List.getLast?_eq_some_getLast hne]
    rw [asksForDirectory, List.getLast?_eq_some_getLast hne]
    rfl

/-! ### Twins -/

/-- Two spellings that differ neither in their components nor in what they ask for at their end. -/
structure Twins (p q : Path) : Prop where
  equal : (p == q) = true
  asks : p.asksForDirectory = q.asksForDirectory

theorem Twins.refl (p : Path) :
  p.Twins p
  :=
  ⟨beq_self_eq_true p, rfl⟩

/-- Equal directories followed by one and the same path. -/
theorem twins_join {p q : Path} (h : (p == q) = true) (more : Path) :
  (p.join more).Twins (q.join more)
  := by
  rw [beq_iff] at h
  cases hmore : more.isAbsolute with
  | true =>
    rw [join, join, hmore]
    exact .refl more
  | false =>
    by_cases hp : p.spelling.toList = []
    · have hq : q.spelling.toList = [] := by
        rw [← componentsOf_eq_nil] at hp ⊢
        exact h.symm.trans hp
      obtain rfl : p = q := by
        cases p
        cases q
        simp_all
      exact .refl _
    · have hq : q.spelling.toList ≠ [] := by
        intro hq
        rw [← componentsOf_eq_nil] at hp hq
        exact hp (h.trans hq)
      obtain ⟨hcomponents, hasks⟩ := join_spec hp hmore
      obtain ⟨hcomponents', hasks'⟩ := join_spec hq hmore
      exact ⟨beq_iff.mpr (by rw [hcomponents, hcomponents', h]), hasks.trans hasks'.symm⟩

theorem fileName?_congr {p q : Path} (h : (p == q) = true) :
  p.fileName? = q.fileName?
  := by
  rw [fileName?, fileName?, beq_iff.mp h]

theorem fileStem?_congr {p q : Path} (h : (p == q) = true) :
  p.fileStem? = q.fileStem?
  := by
  rw [fileStem?, fileStem?, fileName?_congr h]

/-- Twins with one and the same extension. -/
theorem Twins.withExtension {p q : Path} (h : p.Twins q) {extension : String}
    (hext : '/' ∉ extension.toList) (hne : extension ≠ "") :
  (p.withExtension extension).Twins (q.withExtension extension)
  := by
  have hname := fileName?_congr h.equal
  cases hp : p.fileName? with
  | none =>
    rw [hp] at hname
    simpa only [Path.withExtension, hp, ← hname] using h
  | some name =>
    obtain ⟨hcomponents, hasks⟩ := withExtension_spec hp hext hne
    obtain ⟨hcomponents', hasks'⟩ := withExtension_spec (hname.symm.trans hp) hext hne
    refine ⟨beq_iff.mpr ?_, hasks.trans hasks'.symm⟩
    rw [hcomponents, hcomponents', beq_iff.mp h.equal]

/-- Equal paths have equal parents. -/
theorem parent?_congr {p q : Path} (h : (p == q) = true) :
  Option.Rel (fun a b => (a == b) = true) p.parent? q.parent?
  := by
  have hmap : p.parent?.map components = q.parent?.map components := by
    rw [map_components_parent?, map_components_parent?, beq_iff.mp h]
  cases hp : p.parent? with
  | none =>
    cases hq : q.parent? with
    | none => exact .none
    | some b => simp [hp, hq] at hmap
  | some a =>
    cases hq : q.parent? with
    | none => simp [hp, hq] at hmap
    | some b =>
      rw [hp, hq] at hmap
      exact .some (beq_iff.mpr (Option.some.inj hmap))

/-- A parent with a name does not ask for a directory. -/
theorem asksForDirectory_of_parent? {p d : Path} {name : String} (h : p.parent? = some d)
    (hname : d.fileName? = some name) :
  d.asksForDirectory = false
  := by
  have htrimmed : trimmed d.spelling.toList = d.spelling.toList := by
    unfold parent? at h
    split at h
    · contradiction
    · contradiction
    · rw [← Option.some.inj h, String.toList_ofList, trimmed_trimmed]
  obtain ⟨before, piece, hcut⟩ := exists_isCut (fileName?_eq_some.mp hname) (by simp)
  have hspelling : d.spelling.toList = before ++ piece := htrimmed.symm.trans hcut.trimmed
  rw [asksForDirectory, hspelling, getLast?_pieces_append hcut.before_open hcut.plain, Option.any_some,
    hcut.component.resolve_right (by simp)]
  rfl

/-- Equal paths have parents that are twins, if these have a name. -/
theorem twins_parent? {p q d : Path} {name : String} (h : (p == q) = true) (hparent : p.parent? = some d)
    (hname : d.fileName? = some name) :
  ∃ d', q.parent? = some d' ∧ d.Twins d'
  := by
  have hrel := parent?_congr h
  rw [hparent] at hrel
  cases hq : q.parent? with
  | none =>
    rw [hq] at hrel
    cases hrel
  | some d' =>
    rw [hq] at hrel
    cases hrel with
    | some hequal =>
      have hname' := (fileName?_congr hequal).symm.trans hname
      refine ⟨d', rfl, hequal, ?_⟩
      rw [asksForDirectory_of_parent? hparent hname, asksForDirectory_of_parent? hq hname']

end Path

end CallGraph
