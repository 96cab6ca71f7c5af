import CallGraph.Proofs.Files.Sound

/-!
# Writing and removing files

Writing a file and removing one change no directory and no link of a sound tree.  So a path that leads to a
directory goes on to lead there, and one that leads to a file leads to the same place as long as it leads
anywhere.
-/

namespace CallGraph.FileTree

/-! ### Trees with the same directories and links -/

/-- Trees that differ in files at most. -/
structure SameFrame (t t' : FileTree) : Prop where
  workingDirectory : t'.workingDirectory = t.workingDirectory
  directory : ∀ place, t'.entry? place = some .directory ↔ t.entry? place = some .directory
  link : ∀ place target, t'.entry? place = some (.link target) ↔ t.entry? place = some (.link target)

namespace SameFrame

variable {t t' t'' : FileTree}

theorem refl (t : FileTree) :
  SameFrame t t
  :=
  ⟨rfl, fun _ => .rfl, fun _ _ => .rfl⟩

theorem symm (h : SameFrame t t') :
  SameFrame t' t
  :=
  ⟨h.workingDirectory.symm, fun place => (h.directory place).symm, fun place target => (h.link place target).symm⟩

theorem trans (h : SameFrame t t') (h' : SameFrame t' t'') :
  SameFrame t t''
  :=
  ⟨h'.workingDirectory.trans h.workingDirectory, fun place => (h'.directory place).trans (h.directory place),
    fun place target => (h'.link place target).trans (h.link place target)⟩

/-- Paths start at the same place. -/
theorem origin (h : SameFrame t t') (p : Path) :
  t'.origin p = t.origin p
  := by
  rw [FileTree.origin, FileTree.origin, h.workingDirectory]

end SameFrame

/-- Among the same directories and links there are the same ways, if a file that one ends at is there still. -/
theorem Walks.ofSameFrame {t t' : FileTree} (h : SameFrame t t') {links : Nat} {place found : List String}
    {steps : List Step} {entry : Entry} (hway : t.Walks true links place steps (.present found entry))
    (hfile : entry ≠ .directory → ∃ octets modified, t'.entry? found = some (.file octets modified)) :
  ∃ entry', t'.Walks true links place steps (.present found entry') ∧ (entry = .directory → entry' = .directory)
  := by
  generalize hend : Found.present found entry = ending at hway
  induction hway with
  | here =>
    cases hend
    exact ⟨_, .here, id⟩
  | up _ ih =>
    obtain ⟨entry', hway', hdirectory⟩ := ih hend
    exact ⟨entry', .up hway', hdirectory⟩
  | demandDirectory _ ih =>
    obtain ⟨entry', hway', hdirectory⟩ := ih hend
    exact ⟨entry', .demandDirectory hway', hdirectory⟩
  | free => cases hend
  | directory hentry _ ih =>
    obtain ⟨entry', hway', hdirectory⟩ := ih hend
    exact ⟨entry', .directory ((h.directory _).mpr hentry) hway', hdirectory⟩
  | file =>
    cases hend
    obtain ⟨octets, modified, hentry'⟩ := hfile nofun
    exact ⟨_, .file hentry', nofun⟩
  | kept _ keeps => cases keeps
  | link hentry follows _ ih =>
    obtain ⟨entry', hway', hdirectory⟩ := ih hend
    exact ⟨entry', .link ((h.link _ _).mpr hentry) follows hway', hdirectory⟩

/-- Ways among the same directories and links that both end somewhere end at the same place. -/
theorem Walks.place_of_sameFrame {t t' : FileTree} (h : SameFrame t t') {links : Nat}
    {place found found' : List String} {steps : List Step} {entry entry' : Entry}
    (hway : t.Walks true links place steps (.present found entry))
    (hway' : t'.Walks true links place steps (.present found' entry')) :
  found' = found ∧ (entry' = .directory ↔ entry = .directory)
  := by
  -- Where the one tree has a directory or a link the other has it as well, so the ways part at a file at most.
  generalize hend : Found.present found entry = ending at hway
  induction hway with
  | here =>
    cases hend
    cases hway'
    exact ⟨rfl, .rfl⟩
  | up _ ih =>
    cases hway' with
    | up next => exact ih next hend
  | demandDirectory _ ih =>
    cases hway' with
    | demandDirectory next => exact ih next hend
  | free => cases hend
  | directory hentry _ ih =>
    exact ih (hway'.of_directory ((h.directory _).mpr hentry)) hend
  | file hentry =>
    cases hend
    cases hway' with
    | directory hentry' =>
      rw [(h.directory _).mp hentry'] at hentry
      cases hentry
    | file => exact ⟨rfl, by simp⟩
    | kept _ keeps => cases keeps
    | link hentry' =>
      rw [(h.link _ _).mp hentry'] at hentry
      cases hentry
  | kept _ keeps => cases keeps
  | link hentry _ _ ih =>
    exact ih (hway'.of_link rfl ((h.link _ _).mpr hentry)) hend

namespace SameFrame

variable {t t' : FileTree} (h : SameFrame t t') {p q : Path} {place place' : List String} {entry entry' : Entry}

include h

/-- A path goes on to lead where it leads if that is a directory or a file that is there still. -/
theorem lookup_of_present (hlookup : t.lookup p = .ok (place, entry))
    (hfile : entry ≠ .directory → ∃ octets modified, t'.entry? place = some (.file octets modified)) :
  ∃ entry', t'.lookup p = .ok (place, entry') ∧ (entry = .directory → entry' = .directory)
  := by
  obtain ⟨hspelled, hempty, hway⟩ := find_eq_ok_iff.mp (find_of_lookup hlookup)
  obtain ⟨entry', hway', hdirectory⟩ := hway.ofSameFrame h hfile
  exact ⟨entry', lookup_of_find (find_eq_ok_iff.mpr ⟨hspelled, hempty, h.origin p ▸ hway'⟩), hdirectory⟩

/-- A path that leads to a directory goes on to lead there. -/
theorem lookup_directory (hlookup : t.lookup p = .ok (place, .directory)) :
  t'.lookup p = .ok (place, .directory)
  := by
  obtain ⟨entry', hlookup', hdirectory⟩ := h.lookup_of_present hlookup (absurd rfl)
  rw [hlookup', hdirectory rfl]

/-- A path that leads somewhere in both trees leads to the same place. -/
theorem lookup_place (hlookup : t.lookup p = .ok (place, entry)) (hlookup' : t'.lookup p = .ok (place', entry')) :
  place' = place ∧ (entry' = .directory ↔ entry = .directory)
  := by
  have hway' := walks_of_lookup hlookup'
  rw [h.origin] at hway'
  exact (walks_of_lookup hlookup).place_of_sameFrame h hway'

/-- Of equal paths, one that led to a file and one that leads anywhere are twins. -/
theorem twins_of_file {octets : ByteArray} {modified : Nat} (hequal : (p == q) = true)
    (hp : t.lookup p = .ok (place, .file octets modified)) (hq : t'.lookup q = .ok (place', entry')) :
  p.Twins q
  := by
  have hway := walks_of_lookup hp
  have hway' := walks_of_lookup hq
  have hasks := asksForDirectory_of_file hp
  refine ⟨hequal, hasks.trans ?_⟩
  cases hasks' : q.asksForDirectory with
  | false => rfl
  | true =>
    rw [stepsOf_eq, hasks, if_neg Bool.false_ne_true, List.append_nil, FileTree.origin, isAbsolute_congr hequal,
      Path.beq_iff.mp hequal] at hway
    rw [stepsOf_eq, hasks', if_pos rfl, h.origin] at hway'
    cases (hway.place_of_sameFrame h hway'.of_demandDirectory.2).2.mp rfl

end SameFrame

/-! ### Single files -/

theorem entry?_put {t : FileTree} {place : List String} (hplace : place ≠ []) (entry : Entry) (q : List String) :
  entry? (t.put place entry) q = if q = place then some entry else t.entry? q
  := by
  cases q with
  | nil => rw [if_neg hplace.symm]; rfl
  | cons name names =>
    change ((place, entry) :: t.entries.filter (·.1 != place)).lookup (name :: names) =
      if name :: names = place then some entry else t.entries.lookup (name :: names)
    rw [List.lookup_cons]
    by_cases hq : name :: names = place
    · rw [if_pos hq, beq_iff_eq.mpr hq]
    · rw [if_neg hq, beq_eq_false_iff_ne.mpr hq]
      dsimp only
      induction t.entries with
      | nil => rfl
      | cons e es ih =>
        obtain ⟨key, value⟩ := e
        rw [List.lookup_cons, ← ih]
        by_cases hkey : key = place
        · rw [List.filter_cons_of_neg (by simpa using hkey), hkey, beq_eq_false_iff_ne.mpr hq]
        · rw [List.filter_cons_of_pos (by simpa using hkey), List.lookup_cons]

theorem entry?_drop (t : FileTree) {place : List String} (hplace : place ≠ []) (q : List String) :
  entry? (t.drop place) q = if isWithin place q then none else t.entry? q
  := by
  cases q with
  | nil =>
    obtain ⟨name, names, rfl⟩ := List.exists_cons_of_ne_nil hplace
    rfl
  | cons name names =>
    change (t.entries.filter fun e => !isWithin place e.1).lookup (name :: names) =
      if isWithin place (name :: names) then none else t.entries.lookup (name :: names)
    induction t.entries with
    | nil =>
      rw [List.filter_nil, List.lookup_nil, ite_self]
    | cons e es ih =>
      obtain ⟨key, value⟩ := e
      rw [List.lookup_cons]
      by_cases hkey : isWithin place key = true
      · rw [List.filter_cons_of_neg (by simpa using hkey), ih]
        by_cases hq : name :: names = key
        · rw [hq, if_pos hkey, if_pos hkey]
        · rw [beq_eq_false_iff_ne.mpr hq]
      · rw [List.filter_cons_of_pos (by simpa using hkey), List.lookup_cons, ih]
        by_cases hq : name :: names = key
        · rw [hq, beq_self_eq_true, if_neg hkey, if_neg hkey]
        · rw [beq_eq_false_iff_ne.mpr hq]

/-- Two trees that differ in a file at a single place of a directory, which may be missing in either. -/
structure DifferAt (place : List String) (t t' : FileTree) : Prop where
  workingDirectory : t'.workingDirectory = t.workingDirectory
  elsewhere : ∀ q, q ≠ place → t'.entry? q = t.entry? q
  before : ∀ entry, t.entry? place = some entry → ∃ octets modified, entry = .file octets modified
  after : ∀ entry, t'.entry? place = some entry → ∃ octets modified, entry = .file octets modified
  directory : ∀ name directory, place = directory ++ [name] → t.entry? directory = some .directory

namespace DifferAt

variable {place : List String} {t t' : FileTree} (h : DifferAt place t t')

include h

theorem sameFrame :
  SameFrame t t'
  := by
  refine ⟨h.workingDirectory, fun q => ?_, fun q target => ?_⟩
  all_goals
    by_cases hq : q = place
    · subst hq
      constructor
      · intro hentry
        obtain ⟨_, _, hfile⟩ := h.after _ hentry
        cases hfile
      · intro hentry
        obtain ⟨_, _, hfile⟩ := h.before _ hentry
        cases hfile
    · rw [h.elsewhere q hq]

theorem isSound (hsound : t.IsSound) :
  t'.IsSound
  := by
  refine ⟨fun {parent name entry} hentry => ?_, ?_, ?_⟩
  · rw [h.sameFrame.directory]
    by_cases hq : parent ++ [name] = place
    · exact h.directory name parent hq.symm
    · rw [h.elsewhere _ hq] at hentry
      exact hsound.parent hentry
  · rw [h.sameFrame.directory, h.workingDirectory]
    exact hsound.home
  · rw [h.workingDirectory]
    exact hsound.homeNames

end DifferAt

theorem ne_nil_of_file {t : FileTree} {place : List String} {octets : ByteArray} {modified : Nat}
    (h : t.entry? place = some (.file octets modified)) :
  place ≠ []
  := by
  rintro rfl
  cases h

/-- Putting a file where a file or nothing stands changes that place alone. -/
theorem differAt_put {t : FileTree} {place : List String} {octets : ByteArray} {modified : Nat}
    (hplace : place ≠ []) (hbefore : ∀ entry, t.entry? place = some entry →
      ∃ octets modified, entry = .file octets modified)
    (hdirectory : ∀ name directory, place = directory ++ [name] → t.entry? directory = some .directory) :
  DifferAt place t (t.put place (.file octets modified))
  := by
  refine ⟨rfl, fun q hq => ?_, hbefore, fun entry hentry => ?_, hdirectory⟩
  · rw [entry?_put hplace, if_neg hq]
  · rw [entry?_put hplace, if_pos rfl] at hentry
    exact ⟨octets, modified, (Option.some.inj hentry).symm⟩

/-- Writing a file changes one place alone. -/
theorem differAt_writeAt {t t' : FileTree} (hsound : t.IsSound) {p : Path} {octets : ByteArray} {modified : Nat}
    (h : t.writeAt p octets modified = .ok t') :
  ∃ place, DifferAt place t t'
  := by
  obtain ⟨place, hplace, rfl⟩ : ∃ place, t.target p = .ok place ∧ t.put place (.file octets modified) = t' := by
    unfold writeAt at h
    cases htarget : t.target p with
    | error e =>
      rw [htarget] at h
      cases h
    | ok place =>
      rw [htarget] at h
      cases h
      exact ⟨place, rfl, rfl⟩
  refine ⟨place, ?_⟩
  unfold target at hplace
  cases hfind : t.find p true with
  | error e =>
    rw [hfind] at hplace
    cases hplace
  | ok found =>
    rw [hfind] at hplace
    have hstands := hsound.stands_of_find hfind
    clear hfind
    cases hstands with
    | @present place' entry hentry _ hlink =>
      cases entry with
      | directory => cases hplace
      | link target => exact absurd rfl (hlink rfl target)
      | file octets' modified' =>
        cases hplace
        apply differAt_put (ne_nil_of_file hentry)
        · intro entry hentry'
          rw [hentry] at hentry'
          exact ⟨octets', modified', (Option.some.inj hentry').symm⟩
        · rintro name directory rfl
          exact hsound.parent hentry
    | @absent directory name hentry hdirectory _ =>
      obtain rfl : directory ++ [name] = place := by
        change (if _ then _ else _) = _ at hplace
        split at hplace <;> cases hplace
        rfl
      apply differAt_put (by simp)
      · intro entry hentry'
        rw [hentry] at hentry'
        cases hentry'
      · intro name' directory' heq
        obtain ⟨rfl, -⟩ := List.append_inj' heq rfl
        exact hdirectory

/-- Removing a file changes one place alone. -/
theorem differAt_drop {t : FileTree} (hsound : t.IsSound) {place : List String} {octets : ByteArray}
    {modified : Nat} (h : t.entry? place = some (.file octets modified)) :
  DifferAt place t (t.drop place)
  := by
  have hplace := ne_nil_of_file h
  refine ⟨rfl, fun q hq => ?_, fun entry hentry => ?_, fun entry hentry => ?_, ?_⟩
  · rw [entry?_drop t hplace]
    split
    · rename_i hwithin
      -- Below a file stands nothing.
      obtain ⟨more, rfl⟩ := List.isPrefixOf_iff_prefix.mp hwithin
      cases hentry : t.entry? (place ++ more) with
      | none => rfl
      | some entry =>
        have hmore : more ≠ [] := by
          rintro rfl
          exact hq (List.append_nil place)
        rw [hsound.directory_of_append hmore hentry] at h
        cases h
    · rfl
  · rw [h] at hentry
    exact ⟨octets, modified, (Option.some.inj hentry).symm⟩
  · have hself : isWithin place place = true := List.isPrefixOf_iff_prefix.mpr List.prefix_rfl
    rw [entry?_drop t hplace, if_pos hself] at hentry
    cases hentry
  · rintro name directory rfl
    exact hsound.parent h

/-- Writing to a path that leads to a file puts the file there. -/
theorem writeAt_of_lookup {t : FileTree} {p : Path} {place : List String} {octets : ByteArray} {modified : Nat}
    (h : t.lookup p = .ok (place, .file octets modified)) (octets' : ByteArray) (modified' : Nat) :
  t.writeAt p octets' modified' = .ok (t.put place (.file octets' modified'))
  := by
  rw [writeAt, target, find_of_lookup h]
  rfl

theorem exists_iff {t : FileTree} {p : Path} :
  t.exists p = true ↔ ∃ place entry, t.lookup p = .ok (place, entry)
  := by
  unfold «exists»
  cases t.lookup p with
  | error e => simp
  | ok found => exact ⟨fun _ => ⟨_, _, rfl⟩, fun _ => rfl⟩

/-- Where a file is rewritten, the same paths lead somewhere as before. -/
theorem IsSound.exists_put {t : FileTree} (hsound : t.IsSound) {place : List String} {octets : ByteArray}
    {modified : Nat} (hplace : t.entry? place = some (.file octets modified)) (octets' : ByteArray)
    (modified' : Nat) (p : Path) :
  (t.put place (.file octets' modified')).exists p = t.exists p
  := by
  have hput := entry?_put (ne_nil_of_file hplace) (t := t) (.file octets' modified')
  have hdiffer : DifferAt place t (t.put place (.file octets' modified')) := by
    apply differAt_put (ne_nil_of_file hplace)
    · intro entry hentry
      rw [hplace] at hentry
      exact ⟨octets, modified, (Option.some.inj hentry).symm⟩
    · rintro name directory rfl
      exact hsound.parent hplace
  have hforward {t t' : FileTree} (h : SameFrame t t') (hsound : t.IsSound) (hfiles : ∀ q octets modified,
      t.entry? q = some (.file octets modified) → ∃ octets modified, t'.entry? q = some (.file octets modified))
      (hexists : t.exists p = true) : t'.exists p = true := by
    obtain ⟨found, entry, hlookup⟩ := exists_iff.mp hexists
    obtain ⟨hentry, -, hlink⟩ := hsound.stands_of_lookup hlookup
    obtain ⟨entry', hlookup', -⟩ := h.lookup_of_present hlookup fun hdirectory => by
      cases entry with
      | directory => exact absurd rfl hdirectory
      | link target => exact absurd rfl (hlink target)
      | file octets modified => exact hfiles _ _ _ hentry
    exact exists_iff.mpr ⟨found, entry', hlookup'⟩
  rw [Bool.eq_iff_iff]
  constructor
  · apply hforward hdiffer.sameFrame.symm (hdiffer.isSound hsound)
    intro q octets'' modified'' hentry
    rw [hput] at hentry
    split at hentry
    · rename_i hq
      exact ⟨_, _, hq ▸ hplace⟩
    · exact ⟨_, _, hentry⟩
  · apply hforward hdiffer.sameFrame hsound
    intro q octets'' modified'' hentry
    rw [hput]
    split
    · exact ⟨_, _, rfl⟩
    · exact ⟨_, _, hentry⟩

/-- A change of a single file. -/
inductive Edit where
  | write (path : Path) (octets : ByteArray) (modified : Nat)
  | remove (path : Path)

/-- The files after an edit.  A write that fails changes nothing, and nothing but a file is removed. -/
def Edit.apply (t : FileTree) : Edit → FileTree
  | .write path octets modified =>
    match t.writeAt path octets modified with
    | .ok t' => t'
    | .error _ => t
  | .remove path =>
    match t.find path false with
    | .ok (.present _ (.file _ _)) => (t.remove path).2
    | _ => t

/-- Whether an edit writes to a file that is there. -/
def Edit.rewrites (t : FileTree) : Edit → Bool
  | .write path _ _ => t.isFile path
  | .remove _ => false

/-- An edit keeps the directories and links of a sound tree, and the tree sound. -/
theorem IsSound.edit {t : FileTree} (h : t.IsSound) (e : Edit) :
  SameFrame t (e.apply t) ∧ (e.apply t).IsSound
  := by
  have hsame : e.apply t = t ∨ ∃ place, DifferAt place t (e.apply t) := by
    cases e with
    | write path octets modified =>
      unfold Edit.apply
      dsimp only
      split
      · rename_i t' hwrite
        exact .inr (differAt_writeAt h hwrite)
      · exact .inl rfl
    | remove path =>
      unfold Edit.apply
      dsimp only
      split
      · rename_i place octets modified hfind
        cases h.stands_of_find hfind with
        | present hentry _ _ =>
          rw [remove, hfind]
          exact .inr ⟨place, differAt_drop h hentry⟩
      · exact .inl rfl
  rcases hsame with heq | ⟨place, hdiffer⟩
  · rw [heq]
    exact ⟨.refl t, h⟩
  · exact ⟨hdiffer.sameFrame, hdiffer.isSound h⟩

/-- After a file is rewritten the same paths lead somewhere as before. -/
theorem IsSound.exists_edit {t : FileTree} (h : t.IsSound) {e : Edit} (hrewrites : e.rewrites t = true) (p : Path) :
  (e.apply t).exists p = t.exists p
  := by
  cases e with
  | remove path => cases hrewrites
  | write path octets modified =>
    change t.isFile path = true at hrewrites
    unfold isFile at hrewrites
    split at hrewrites
    · rename_i place octets' modified' hlookup
      rw [Edit.apply, writeAt_of_lookup hlookup]
      exact h.exists_put (h.stands_of_lookup hlookup).1 _ _ _
    · cases hrewrites

end CallGraph.FileTree
