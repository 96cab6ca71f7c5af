import CallGraph.Proofs.Files.Directories
import CallGraph.Proofs.Text.Utf8

/-!
# Replacing a file of a directory

A file that is moved from one directory to another and written anew changes nothing but the two places, as
long as neither holds a directory or a link.
-/

namespace CallGraph.FileTree

/-- A place that holds a file or nothing. -/
def HoldsFileAtMost (t : FileTree) (place : List String) : Prop :=
  ∀ entry, t.entry? place = some entry → ∃ octets modified, entry = .file octets modified

/-- The tree after what stands at a place, with all below it, is moved to another one. -/
def moved (t : FileTree) (old new : List String) : FileTree :=
  { (t.drop old).drop new with
    entries := (t.entries.filterMap fun e =>
      if isWithin old e.1 then some (new ++ e.1.drop old.length, e.2) else none) ++ ((t.drop old).drop new).entries }

theorem lookup_moved (entries : List (List String × Entry)) (old new q : List String) :
  (entries.filterMap fun e =>
    if isWithin old e.1 then some (new ++ e.1.drop old.length, e.2) else none).lookup q =
      if isWithin new q then entries.lookup (old ++ q.drop new.length) else none
  := by
  induction entries with
  | nil => simp
  | cons e entries ih =>
    obtain ⟨key, entry⟩ := e
    rw [List.filterMap_cons, List.lookup_cons]
    dsimp only
    by_cases hkey : isWithin old key = true
    · obtain ⟨more, rfl⟩ := List.isPrefixOf_iff_prefix.mp hkey
      rw [if_pos hkey, List.drop_left]
      dsimp only
      rw [List.lookup_cons, ih]
      by_cases hq : isWithin new q = true
      · obtain ⟨more', rfl⟩ := List.isPrefixOf_iff_prefix.mp hq
        have hsame : (old ++ more' == old ++ more) = (new ++ more' == new ++ more) := by
          rw [Bool.eq_iff_iff, beq_iff_eq, beq_iff_eq, List.append_cancel_left_eq, List.append_cancel_left_eq]
        rw [if_pos hq, if_pos hq, List.drop_left, hsame]
      · have hne : (q == new ++ more) = false := by
          rw [beq_eq_false_iff_ne]
          rintro rfl
          exact hq (List.isPrefixOf_iff_prefix.mpr (List.prefix_append new more))
        rw [if_neg hq, if_neg hq, hne]
    · rw [if_neg hkey, ih]
      split
      · have hne : (old ++ q.drop new.length == key) = false := by
          rw [beq_eq_false_iff_ne]
          rintro rfl
          exact hkey (List.isPrefixOf_iff_prefix.mpr (List.prefix_append old _))
        rw [hne]
      · rfl

theorem entry?_moved (t : FileTree) {old new : List String} (hold : old ≠ []) (hnew : new ≠ []) (q : List String) :
  entry? (t.moved old new) q = if isWithin new q then t.entry? (old ++ q.drop new.length)
    else if isWithin old q then none else t.entry? q
  := by
  have hdropped : entry? ((t.drop old).drop new) q =
      if isWithin new q then none else if isWithin old q then none else t.entry? q := by
    rw [entry?_drop _ hnew, entry?_drop _ hold]
  cases q with
  | nil =>
    obtain ⟨name, names, rfl⟩ := List.exists_cons_of_ne_nil hold
    obtain ⟨name', names', rfl⟩ := List.exists_cons_of_ne_nil hnew
    rfl
  | cons name names =>
    obtain ⟨first, more, hfirst⟩ : ∃ first more, old ++ (name :: names).drop new.length = first :: more :=
      List.exists_cons_of_ne_nil (List.append_ne_nil_of_left_ne_nil hold _)
    change List.lookup (name :: names) (_ ++ _) = _
    rw [List.lookup_append, lookup_moved]
    change Option.or _ ( entry? ((t.drop old).drop new) (name :: names)) = _
    rw [hdropped, hfirst]
    change Option.or (if _ then t.entry? (first :: more) else none) _ = _
    split
    · rw [Option.or_none]
    · rw [Option.none_or]

/-! ### Trees that differ in some files -/

/-- Trees that differ at most in the files at some places. -/
structure DifferAmong (places : List (List String)) (t t' : FileTree) : Prop where
  sameFrame : SameFrame t t'
  isSound : t'.IsSound
  elsewhere : ∀ q ∉ places, t'.entry? q = t.entry? q
  atMost : ∀ place ∈ places, t'.HoldsFileAtMost place

namespace DifferAmong

variable {places : List (List String)} {t t' t'' : FileTree}

theorem refl (hsound : t.IsSound) (hmost : ∀ place ∈ places, t.HoldsFileAtMost place) :
  DifferAmong places t t
  :=
  ⟨.refl t, hsound, fun _ _ => rfl, hmost⟩

theorem trans (h : DifferAmong places t t') (h' : DifferAmong places t' t'') :
  DifferAmong places t t''
  :=
  ⟨h.sameFrame.trans h'.sameFrame, h'.isSound, fun q hq => (h'.elsewhere q hq).trans (h.elsewhere q hq), h'.atMost⟩

/-- Trees that differ at one of the places. -/
theorem of_differAt {place : List String} (h : DifferAt place t t') (hsound : t.IsSound) (hplace : place ∈ places)
    (hmost : ∀ place ∈ places, t.HoldsFileAtMost place) :
  DifferAmong places t t'
  := by
  refine ⟨h.sameFrame, h.isSound hsound, fun q hq => ?_, fun q hq => ?_⟩
  · apply h.elsewhere
    rintro rfl
    exact hq hplace
  · by_cases hne : q = place
    · rw [hne]
      exact h.after
    · intro entry hentry
      rw [h.elsewhere q hne] at hentry
      exact hmost q hq entry hentry

end DifferAmong

/-! ### Moving and writing a file -/

variable {t : FileTree} {directory directory' : List String} {name : String}

theorem HoldsFileAtMost.cases {place : List String} (h : t.HoldsFileAtMost place) :
  t.entry? place = none ∨ ∃ octets modified, t.entry? place = some (.file octets modified)
  := by
  cases hentry : t.entry? place with
  | none => exact .inl rfl
  | some entry =>
    obtain ⟨octets, modified, rfl⟩ := h entry hentry
    exact .inr ⟨octets, modified, rfl⟩

theorem HoldsFileAtMost.ne_directory {place : List String} (h : t.HoldsFileAtMost place) :
  t.entry? place ≠ some .directory
  := by
  intro hdirectory
  obtain ⟨_, _, hfile⟩ := h _ hdirectory
  cases hfile

/-- Below a place that holds no directory stands nothing. -/
theorem IsSound.entry?_below (hsound : t.IsSound) {place more : List String}
    (h : t.entry? place ≠ some .directory) (hmore : more ≠ []) :
  t.entry? (place ++ more) = none
  := by
  cases hentry : t.entry? (place ++ more) with
  | none => rfl
  | some entry => exact absurd (hsound.directory_of_append hmore hentry) h

/-- Moving a file changes the place it leaves and the place it comes to. -/
theorem differAmong_moved (hsound : t.IsSound) {octets : ByteArray} {modified : Nat}
    (hold : t.entry? (directory ++ [name]) = some (.file octets modified))
    (hnew : t.HoldsFileAtMost (directory' ++ [name])) (hdirectory : t.entry? directory' = some .directory)
    (hne : directory' ≠ directory) :
  DifferAmong [directory ++ [name], directory' ++ [name]] t (t.moved (directory ++ [name]) (directory' ++ [name]))
  := by
  have hplaces : directory' ++ [name] ≠ directory ++ [name] := by
    intro heq
    exact hne (List.append_inj_left' heq rfl)
  have hfile : t.HoldsFileAtMost (directory ++ [name]) := by
    intro entry hentry
    rw [hold] at hentry
    exact ⟨octets, modified, (Option.some.inj hentry).symm⟩
  have hmost : ∀ place ∈ [directory ++ [name], directory' ++ [name]], t.HoldsFileAtMost place := by
    rw [List.forall_mem_cons, List.forall_mem_singleton]
    exact ⟨hfile, hnew⟩
  generalize hold' : directory ++ [name] = old at *
  have hnil : old ≠ [] := ne_nil_of_file hold
  have hnil' : directory' ++ [name] ≠ [] := by simp
  have hdropped := DifferAmong.of_differAt (differAt_drop hsound hold) hsound List.mem_cons_self hmost
  have hput : DifferAt (directory' ++ [name]) (t.drop old) (t.moved old (directory' ++ [name])) := by
    refine ⟨rfl, fun q hq => ?_, hdropped.atMost _ (by simp), fun entry hentry => ?_, ?_⟩
    · rw [entry?_moved t hnil hnil', entry?_drop t hnil]
      split
      · rename_i hwithin
        obtain ⟨more, rfl⟩ := List.isPrefixOf_iff_prefix.mp hwithin
        have hmore : more ≠ [] := by
          rintro rfl
          exact hq (List.append_nil _)
        rw [List.drop_left, hsound.entry?_below hfile.ne_directory hmore,
          hsound.entry?_below hnew.ne_directory hmore, ite_self]
      · rfl
    · have hself : isWithin (directory' ++ [name]) (directory' ++ [name]) = true :=
        List.isPrefixOf_iff_prefix.mpr List.prefix_rfl
      rw [entry?_moved t hnil hnil', if_pos hself, List.drop_length, List.append_nil] at hentry
      exact hfile entry hentry
    · intro name' parent heq
      obtain ⟨rfl, -⟩ := List.append_inj' heq rfl
      rw [hdropped.sameFrame.directory]
      exact hdirectory
  apply hdropped.trans
  exact .of_differAt hput hdropped.isSound (by simp) hdropped.atMost

/-- The name of a file, by which it can be looked up in a directory. -/
structure IsFileName (name : String) : Prop where
  isEntryName : IsEntryName name
  named : name.toList.any (·.toNat == 0) = false

instance (name : String) : Decidable (IsFileName name) :=
  decidable_of_iff (IsEntryName name ∧ name.toList.any (·.toNat == 0) = false)
    ⟨fun h => ⟨h.1, h.2⟩, fun h => ⟨h.isEntryName, h.named⟩⟩

variable {d d' : Path}

/-- A file of a directory is moved to another one under its name. -/
theorem rename_child (h : t.Leads d directory) (h' : t.Leads d' directory') (hname : IsFileName name)
    {octets : ByteArray} {modified : Nat} (hold : t.entry? (directory ++ [name]) = some (.file octets modified))
    (hnew : t.HoldsFileAtMost (directory' ++ [name])) :
  t.rename (d.child name) (d'.child name) =
    .ok (if directory' = directory then t else t.moved (directory ++ [name]) (directory' ++ [name]))
  := by
  have hsource : t.find (d.child name) false = .ok (t.foundAt (directory ++ [name])) :=
    h.find_child hname.isEntryName hname.named nofun
  have hdestination : t.find (d'.child name) false = .ok (t.foundAt (directory' ++ [name])) :=
    h'.find_child hname.isEntryName hname.named nofun
  rw [foundAt, hold] at hsource
  by_cases hne : directory' = directory
  · subst hne
    rw [foundAt, hold] at hdestination
    rw [rename, hsource, hdestination, if_pos rfl]
    change (if (directory' ++ [name] == directory' ++ [name]) = true then _ else _) = _
    rw [beq_self_eq_true, if_pos rfl]
  · rw [rename, hsource, hdestination, foundAt, if_neg hne]
    rcases hnew.cases with hnone | ⟨octets', modified', hfile⟩
    · rw [hnone]
      rfl
    · rw [hfile]
      change (if (directory' ++ [name] == directory ++ [name]) = true then _ else _) = _
      rw [if_neg]
      · rfl
      · rw [beq_iff_eq]
        intro heq
        exact hne (List.append_inj_left' heq rfl)

/-- A file of a directory can be moved to another one. -/
theorem exists_rename (hsound : t.IsSound) (h : t.Leads d directory) (h' : t.Leads d' directory')
    (hname : IsFileName name) {octets : ByteArray} {modified : Nat}
    (hold : t.entry? (directory ++ [name]) = some (.file octets modified))
    (hnew : t.HoldsFileAtMost (directory' ++ [name])) :
  ∃ t', t.rename (d.child name) (d'.child name) = .ok t' ∧
    DifferAmong [directory ++ [name], directory' ++ [name]] t t'
  := by
  refine ⟨_, rename_child h h' hname hold hnew, ?_⟩
  split
  case isTrue heq =>
    subst heq
    refine .refl hsound fun place hplace => ?_
    obtain rfl : place = directory' ++ [name] := by simpa using hplace
    exact hnew
  case isFalse hne => exact differAmong_moved hsound hold hnew (h'.entry? hsound) hne

/-- A child that is a file or nothing is looked up as it stands. -/
theorem Leads.find_file (h : t.Leads d directory) (hname : IsFileName name)
    (hmost : t.HoldsFileAtMost (directory ++ [name])) :
  t.find (d.child name) true = .ok (t.foundAt (directory ++ [name]))
  := by
  apply h.find_child hname.isEntryName hname.named
  intro _ target hlink
  obtain ⟨_, _, hfile⟩ := hmost _ hlink
  cases hfile

/-- What is written to a child that is a file or nothing is put where the child stands. -/
theorem Leads.writeAt_child (h : t.Leads d directory) (hname : IsFileName name)
    (hmost : t.HoldsFileAtMost (directory ++ [name])) (octets : ByteArray) (modified : Nat) :
  t.writeAt (d.child name) octets modified = .ok (t.put (directory ++ [name]) (.file octets modified))
  := by
  have htarget : t.target (d.child name) = .ok (directory ++ [name]) := by
    rw [target, h.find_file hname hmost, foundAt]
    rcases hmost.cases with hnone | ⟨octets, modified, hfile⟩
    · rw [hnone]
      change (if _ then _ else _) = _
      rw [stepsOf_child d hname.isEntryName, if_neg (by simp)]
    · rw [hfile]
      rfl
  rw [writeAt, htarget]
  rfl

/-- A file put into a directory changes its own place only. -/
theorem Leads.differAt_put (h : t.Leads d directory) (hsound : t.IsSound)
    (hmost : t.HoldsFileAtMost (directory ++ [name])) (octets : ByteArray) (modified : Nat) :
  DifferAt (directory ++ [name]) t (t.put (directory ++ [name]) (.file octets modified))
  := by
  apply FileTree.differAt_put (by simp) hmost
  intro name' parent heq
  obtain ⟨rfl, -⟩ := List.append_inj' heq rfl
  exact h.entry? hsound

/-- A file is written where there is one or nothing. -/
theorem exists_writeText (hsound : t.IsSound) (h : t.Leads d directory) (hname : IsFileName name)
    (hmost : t.HoldsFileAtMost (directory ++ [name])) (text : String) :
  ∃ t' modified, t.writeText (d.child name) text = .ok t' ∧
    t'.entry? (directory ++ [name]) = some (.file text.toUTF8 modified) ∧
    DifferAt (directory ++ [name]) t t'
  := by
  refine ⟨_, t.clock, h.writeAt_child hname hmost _ _, ?_, h.differAt_put hsound hmost _ _⟩
  rw [entry?_put (by simp), if_pos rfl]

/-- Whether something stands in a directory is seen from the entries. -/
theorem exists_child (h : t.Leads d directory) (hname : IsFileName name)
    (hmost : t.HoldsFileAtMost (directory ++ [name])) :
  t.exists (d.child name) = true ↔ ∃ octets modified, t.entry? (directory ++ [name]) = some (.file octets modified)
  := by
  rw [«exists», lookup, h.find_file hname hmost, foundAt]
  rcases hmost.cases with hnone | ⟨octets, modified, hfile⟩
  · rw [hnone]
    constructor
    · intro hexists
      cases hexists
    · rintro ⟨_, _, hfile⟩
      cases hfile
  · rw [hfile]
    exact ⟨fun _ => ⟨octets, modified, rfl⟩, fun _ => rfl⟩

/-- The octets of a file in a directory are read from its entry. -/
theorem Leads.readOctets_child (h : t.Leads d directory) (hname : IsFileName name)
    (hmost : t.HoldsFileAtMost (directory ++ [name])) :
  t.readOctets (d.child name) =
    match t.entry? (directory ++ [name]) with
    | some (.file octets _) => .ok octets
    | _ => .error .notFound
  := by
  rw [readOctets, FileTree.lookup, h.find_file hname hmost, foundAt]
  rcases hmost.cases with hnone | ⟨octets, modified, hfile⟩
  · rw [hnone]
    rfl
  · rw [hfile]
    rfl

/-- The text of a file in a directory. -/
theorem readText_child (h : t.Leads d directory) (hname : IsFileName name) {text : String} {modified : Nat}
    (hentry : t.entry? (directory ++ [name]) = some (.file text.toUTF8 modified)) :
  t.readText (d.child name) = .ok text
  := by
  have hmost : t.HoldsFileAtMost (directory ++ [name]) := by
    intro entry hentry'
    rw [hentry] at hentry'
    exact ⟨_, _, (Option.some.inj hentry').symm⟩
  rw [readText, h.readOctets_child hname hmost, hentry]
  dsimp only [bind, Except.bind]
  rw [Utf8.decode_toUTF8]

end CallGraph.FileTree

/-!
## Directories that are added

Making directories adds entries to a tree and takes none away.  Whatever a look-up comes to, other than that there is
nothing, it comes to as well once directories are added.
-/

namespace CallGraph.FileTree

open Relation (ReflTransGen)

/-- How many steps the longest link of a tree asks for. -/
def longestLink (t : FileTree) : Nat :=
  (t.entries.map fun e => e.2.reach).foldl max 0

/-- A tree that has all that another one has, and no longer links. -/
structure Grows (t t' : FileTree) : Prop where
  workingDirectory : t'.workingDirectory = t.workingDirectory
  longestLink : t'.longestLink = t.longestLink
  kept : ∀ {place entry}, t.entry? place = some entry → t'.entry? place = some entry

namespace Grows

variable {t t' t'' : FileTree}

theorem refl (t : FileTree) :
  Grows t t
  :=
  ⟨rfl, rfl, id⟩

theorem trans (h : Grows t t') (h' : Grows t' t'') :
  Grows t t''
  :=
  ⟨h'.workingDirectory.trans h.workingDirectory, h'.longestLink.trans h.longestLink, fun hentry =>
    h'.kept (h.kept hentry)⟩

/-- A walk goes the same way, unless it comes to a place where nothing stands. -/
theorem walk (h : Grows t t') {follow : Bool} {fuel links : Nat} {place : List String} {steps : List Step}
    (hfound : t.walk follow fuel links place steps ≠ .error .notFound)
    (hpresent : ∀ free, t.walk follow fuel links place steps ≠ .ok (.absent free)) :
  t'.walk follow fuel links place steps = t.walk follow fuel links place steps
  := by
  induction fuel generalizing links place steps with
  | zero => rfl
  | succ fuel ih =>
    rw [walk.eq_def t] at hfound hpresent ⊢
    rw [walk.eq_def t']
    dsimp only at hfound hpresent ⊢
    cases steps with
    | nil => rfl
    | cons step rest =>
      cases step with
      | up => exact ih hfound hpresent
      | demandDirectory => exact ih hfound hpresent
      | enter name =>
        dsimp only at hfound hpresent ⊢
        cases hentry : t.entry? (place ++ [name]) with
        | none =>
          rw [hentry] at hfound hpresent
          dsimp only at hfound hpresent
          split at hfound
          · rename_i hlast
            exact absurd (if_pos hlast) (hpresent _)
          · exact absurd rfl hfound
        | some entry =>
          rw [hentry] at hfound hpresent
          rw [h.kept hentry]
          cases entry with
          | directory => exact ih hfound hpresent
          | file octets modified => rfl
          | link target =>
            dsimp only at hfound hpresent ⊢
            split
            case isTrue => rfl
            case isFalse hlast =>
              rw [if_neg hlast] at hfound hpresent
              cases links with
              | zero => rfl
              | succ links => exact ih hfound hpresent

theorem lookup (h : Grows t t') {p : Path} (hfound : t.lookup p ≠ .error .notFound) :
  t'.lookup p = t.lookup p
  := by
  have hfind (t : FileTree) : t.find p true =
      if p.spelling.toList.any (·.toNat == 0) then .error .invalidName
      else if p.spelling.isEmpty then .error .notFound
      else t.walk true ((stepsOf p.spelling).length + 41 * (t.longestLink + 1) + 1) 40
        (if p.isAbsolute then [] else t.workingDirectory) (stepsOf p.spelling) := rfl
  have hsame : t'.find p true = t.find p true := by
    rw [FileTree.lookup] at hfound
    rw [hfind] at hfound
    rw [hfind, hfind]
    split
    case isTrue => rfl
    case isFalse hnamed =>
      split
      case isTrue => rfl
      case isFalse hspelled =>
        rw [if_neg hnamed, if_neg hspelled] at hfound
        rw [h.longestLink, h.workingDirectory]
        apply h.walk
        · intro hwalk
          exact hfound (by rw [hwalk]; rfl)
        · intro free hwalk
          exact hfound (by rw [hwalk]; rfl)
  rw [FileTree.lookup, FileTree.lookup, hsame]

/-- A file that is there, or whatever else keeps a text from being read, is there still. -/
theorem readText (h : Grows t t') {p : Path} (hfound : t.readText p ≠ .error .notFound) :
  t'.readText p = t.readText p
  := by
  have hlookup : t.lookup p ≠ .error .notFound := by
    intro hlookup
    rw [FileTree.readText, readOctets, hlookup] at hfound
    exact hfound rfl
  rw [FileTree.readText, FileTree.readText, readOctets, readOctets, h.lookup hlookup]

end Grows

variable {t t' : FileTree}

/-- A directory is put where nothing stands. -/
theorem grows_put {place : List String} (hfree : t.entry? place = none) :
  Grows t (t.put place .directory)
  := by
  have hplace : place ≠ [] := by
    rintro rfl
    cases hfree
  have hentries : t.entries.filter (·.1 != place) = t.entries := by
    obtain ⟨name, names, rfl⟩ := List.exists_cons_of_ne_nil hplace
    have hnone := List.lookup_eq_none_iff.mp hfree
    rw [List.filter_eq_self]
    intro e hmem
    rw [bne_iff_ne]
    exact (bne_iff_ne.mp (hnone e hmem)).symm
  refine ⟨rfl, ?_, fun {q entry} hentry => ?_⟩
  · rw [longestLink, put, hentries]
    rfl
  · rw [entry?_put hplace, if_neg, hentry]
    rintro rfl
    rw [hfree] at hentry
    cases hentry

theorem grows_makeDirectory {p : Path} (h : t.makeDirectory p = .ok t') :
  Grows t t'
  := by
  obtain ⟨place, hfind, rfl⟩ := eq_of_makeDirectory h
  exact grows_put (entry?_of_absent hfind)

/-- Adding directories takes nothing away. -/
theorem Grows.of_gains (h : ReflTransGen Gains t t') :
  Grows t t'
  := by
  induction h with
  | refl => exact .refl t
  | tail _ hgains ih =>
    obtain ⟨p, hmake⟩ := hgains
    exact ih.trans (grows_makeDirectory hmake)

end CallGraph.FileTree
