import CallGraph.Proofs.Files.Replacing
import CallGraph.Proofs.Settings.Kept

/-!
# Saving that fails

Settings are saved by changes of the file system that may each fail.  Of directories that cannot all be made some may
have been, and a file that cannot be written may hold a part of its text.  As long as it is not the write that fails,
whatever was stored is loaded as before.  If it is, this is so of the other categories; the file of the category itself
is missing then or holds a part of the new text, and the old file is in the backup.
-/

namespace CallGraph

open Relation (ReflTransGen)

/-! ### What failing changes leave -/

/-- A path is another one or stands above it. -/
def Path.IsAbove (upper lower : Path) : Prop :=
  ReflTransGen (fun p q => p.parent? = some q) lower upper

namespace FileTree

variable {t t' : FileTree}

/-- What a change that fails leaves: directories may have been made down to some level, and a file that was to be
written may hold the beginning of its text.  A file that cannot be moved stays. -/
inductive Leaves (t : FileTree) : FileAction → FileTree → Prop where
  | untouched {action : FileAction} : Leaves t action t
  | directories {upper lower : Path} (above : upper.IsAbove lower) :
      Leaves t (.makeDirectories lower) (t.makeAll upper).2
  | cutOff {path : Path} {text : String} {octets rest : ByteArray} {modified : Nat} {left : FileTree}
      (initial : octets ++ rest = text.toUTF8) (written : t.writeAt path octets modified = .ok left) :
      Leaves t (.write path text) left

/-- What directories that could not all be made leave has only directories added. -/
theorem Leaves.gains {path : Path} (h : t.Leaves (.makeDirectories path) t') :
  ReflTransGen Gains t t'
  := by
  cases h with
  | untouched => exact .refl
  | directories => exact t.gains_makeAll _

theorem eq_of_replacedBy_eq_ok {r : Except FileError FileTree} (h : t.replacedBy r = (.ok (), t')) :
  r = .ok t'
  := by
  cases r with
  | ok => exact congrArg Except.ok (congrArg Prod.snd h)
  | error => cases h

theorem eq_of_replacedBy_eq_error {r : Except FileError FileTree} {e : FileError}
    (h : t.replacedBy r = (.error e, t')) :
  t' = t
  := by
  cases r with
  | ok => cases h
  | error => exact (congrArg Prod.snd h).symm

end FileTree

namespace DirectoryStore

open FileTree

variable {act : FileTree → FileAction → Except FileError Unit × FileTree} {s s' : DirectoryStore}
  {t t' begun moved : FileTree} {directory : Path} {here there : List String} {category : Category} {value : Json}
  {e : SettingsError}

/-- Changes of the file system of which each may fail. -/
def MayFail (act : FileTree → FileAction → Except FileError Unit × FileTree) : Prop :=
  ∀ t action, act t action = t.act action ∨
    ∃ cause left, act t action = (.error cause, left) ∧ t.Leaves action left

/-- The files once the directories are made that a store needs. -/
def made (s : DirectoryStore) (t : FileTree) : FileTree :=
  match s.directory with
  | none => t
  | some directory => if s.prepared then t else (t.makeAll (backup directory)).2

/-- A category loads as before.  If nothing was stored, it may load what is found once directories are made for the
backup, or some of them. -/
def Retains (directory : Path) (s s' : DirectoryStore) (t t' : FileTree) (category : Category) : Prop :=
  s'.load t' category = s.load t category ∨
    s.load t category = .ok none ∧
      ∃ begun, t.Leaves (.makeDirectories (backup directory)) begun ∧ s'.load t' category = s.load begun category

/-- The new text of a category is missing or cut off.  The old file, if there was one, is in the backup unless this is
the directory itself. -/
structure SetAside (directory : Path) (text : String) (t : FileTree) (s' : DirectoryStore) (t' : FileTree)
    (category : Category) : Prop where
  written : s'.load t' category = .ok none ∨ ∃ octets rest, octets ++ rest = text.toUTF8 ∧
    t'.readOctets (directory.child (fileName category)) = .ok octets
  kept : t.exists (directory.child (fileName category)) = true →
    t'.readOctets ((backup directory).child (fileName category)) =
        t.readOctets (directory.child (fileName category)) ∨
      ∃ place, t.Leads directory place ∧ t.Leads (backup directory) place

/-! ### What a failing save does -/

namespace MayFail

variable {action : FileAction} (hact : MayFail act)

include hact

theorem act_eq_of_ok (h : act t action = (.ok (), t')) :
  t.act action = (.ok (), t')
  := by
  rcases hact t action with heq | ⟨cause, left, heq, -⟩
  · rw [← heq, h]
  · rw [h] at heq
    cases heq

/-- Whether or not a change could have been made, if it fails no more is left than by a failing change. -/
theorem leaves {cause : FileError} (h : act t action = (.error cause, t')) :
  t.Leaves action t'
  := by
  rcases hact t action with heq | ⟨cause, left, heq, hleaves⟩
  · rw [heq] at h
    cases action with
    | makeDirectories path =>
      have hleft : (t.makeAll path).2 = t' := congrArg Prod.snd h
      rw [← hleft]
      exact .directories .refl
    | move source destination =>
      rw [eq_of_replacedBy_eq_error h]
      exact .untouched
    | write path text =>
      rw [eq_of_replacedBy_eq_error h]
      exact .untouched
  · rw [heq] at h
    cases h
    exact hleaves

end MayFail

theorem exists_of_carryOut_singleton {action : FileAction} (h : carryOut act [action] t = (.error e, t')) :
  ∃ cause, act t action = (.error cause, t') ∧ e = .unsaved action.path cause
  := by
  rw [carryOut] at h
  split at h
  case h_1 => cases h
  case h_2 cause left hact =>
    cases h
    exact ⟨cause, hact, rfl⟩

/-- The old file of a category, if there is one, is moved into the backup. -/
inductive Clears (directory : Path) (category : Category) (t : FileTree) : FileTree → Prop where
  | absent (absent : t.exists (directory.child (fileName category)) = false) : Clears directory category t t
  | moved {moved : FileTree} (present : t.exists (directory.child (fileName category)) = true)
      (rename : t.rename (directory.child (fileName category)) ((backup directory).child (fileName category)) =
        .ok moved) : Clears directory category t moved

/-- Of the changes that replace a file, the first fails and nothing has changed, or the write does. -/
theorem cases_of_replacement (hact : MayFail act)
    (h : carryOut act (replacement directory t category value) t = (.error e, t')) :
  t' = t ∨ ∃ moved, Clears directory category t moved ∧
    moved.Leaves (.write (directory.child (fileName category)) (content value)) t' ∧
    ∃ cause, e = .unsaved (directory.child (fileName category)) cause
  := by
  rw [replacement] at h
  split at h
  case isFalse habsent =>
    obtain ⟨cause, hwrite, rfl⟩ := exists_of_carryOut_singleton h
    exact .inr ⟨t, .absent ((Bool.not_eq_true _).mp habsent), hact.leaves hwrite, cause, rfl⟩
  case isTrue hexists =>
    rw [List.singleton_append, carryOut] at h
    split at h
    case h_1 moved hmove =>
      obtain ⟨cause, hwrite, rfl⟩ := exists_of_carryOut_singleton h
      have hrename := eq_of_replacedBy_eq_ok (hact.act_eq_of_ok hmove)
      exact .inr ⟨moved, .moved hexists hrename, hact.leaves hwrite, cause, rfl⟩
    case h_2 cause left hmove =>
      cases h
      cases hact.leaves hmove with
      | untouched => exact .inl rfl

/-- Before a file is replaced, the directories are made that a store needs. -/
theorem eq_made_of_carryOut (hact : MayFail act) {prepared : Bool}
    (h : carryOut act (if prepared then [] else [.makeDirectories (backup directory)]) t = (.ok (), t')) :
  t' = made ⟨some directory, prepared⟩ t
  := by
  cases prepared with
  | true =>
    cases h
    rfl
  | false =>
    rw [if_neg Bool.false_ne_true, carryOut] at h
    split at h
    case h_2 => cases h
    case h_1 files hmake =>
      cases h
      exact (congrArg Prod.snd (hact.act_eq_of_ok hmake)).symm

theorem leaves_made (hplace : s.directory = some directory) :
  t.Leaves (.makeDirectories (backup directory)) (s.made t)
  := by
  rw [made, hplace]
  dsimp only
  split
  · exact .untouched
  · exact .directories .refl

/-- When saving fails, either at most directories have been made, or the new file cannot be written. -/
theorem cases_of_saveWith (hact : MayFail act) (h : s.saveWith act t category value = (.error e, s', t')) :
  ∃ directory, s.directory = some directory ∧ s'.directory = some directory ∧
    (t.Leaves (.makeDirectories (backup directory)) t' ∨ ∃ moved, Clears directory category (s.made t) moved ∧
      moved.Leaves (.write (directory.child (fileName category)) (content value)) t' ∧
      ∃ cause, e = .unsaved (directory.child (fileName category)) cause)
  := by
  obtain ⟨place, prepared⟩ := s
  cases place with
  | none => cases h
  | some directory =>
    have hmade : t.Leaves (.makeDirectories (backup directory)) (made ⟨some directory, prepared⟩ t) := leaves_made rfl
    rw [saveWith] at h
    dsimp only at h
    split at h
    case h_1 hprepare =>
      cases h
      refine ⟨directory, rfl, rfl, .inl ?_⟩
      cases prepared with
      | true => cases hprepare
      | false =>
        obtain ⟨cause, hmake, -⟩ := exists_of_carryOut_singleton hprepare
        exact hact.leaves hmake
    case h_2 begun hprepare =>
      obtain rfl := eq_made_of_carryOut hact hprepare
      generalize made ⟨some directory, prepared⟩ t = begun at h hmade ⊢
      cases hreplace : carryOut act (replacement directory begun category value) begun with
      | mk result files =>
        rw [hreplace] at h
        cases h
        refine ⟨directory, rfl, rfl, ?_⟩
        rcases cases_of_replacement hact hreplace with rfl | hwrite
        · exact .inl hmade
        · exact .inr hwrite

/-! ### What is loaded afterwards -/

/-- What a category loads depends on the text of its file. -/
theorem load_congr (hdirectory : s'.directory = s.directory)
    (htext : ∀ directory, s.directory = some directory →
      t'.readText (directory.child (fileName category)) = t.readText (directory.child (fileName category))) :
  s'.load t' category = s.load t category
  := by
  rw [load, load, file?, file?, hdirectory]
  cases hplace : s.directory with
  | none => rfl
  | some directory =>
    rw [Option.map_some]
    dsimp only
    rw [htext directory hplace]

theorem load_of_notFound (hplace : s.directory = some directory)
    (h : t.readText (directory.child (fileName category)) = .error .notFound) :
  s.load t category = .ok none
  := by
  rw [load, file?, hplace, Option.map_some]
  dsimp only
  rw [h]

/-- What loads as it does from files to which only directories were added is retained. -/
theorem Retains.of_begun (hplace : s.directory = some directory)
    (hbegun : t.Leaves (.makeDirectories (backup directory)) begun)
    (h : s'.load t' category = s.load begun category) :
  Retains directory s s' t t' category
  := by
  by_cases hnone : s.load t category = .ok none
  · exact .inr ⟨hnone, begun, hbegun, h⟩
  · refine .inl (h.trans (load_congr rfl fun place hplace' => ?_))
    cases hplace.symm.trans hplace'
    exact (Grows.of_gains hbegun.gains).readText fun htext => hnone (load_of_notFound hplace htext)

/-! ### When the write fails -/

theorem readOctets_child_congr {d d' : Path} {name : String} (hname : IsFileName name) (h : t.Leads d here)
    (h' : t'.Leads d' there) (hmost : t.HoldsFileAtMost (here ++ [name]))
    (hentry : t'.entry? (there ++ [name]) = t.entry? (here ++ [name])) :
  t'.readOctets (d'.child name) = t.readOctets (d.child name)
  := by
  have hmost' : t'.HoldsFileAtMost (there ++ [name]) := by
    intro entry hentry'
    exact hmost entry (hentry ▸ hentry')
  rw [h.readOctets_child hname hmost, h'.readOctets_child hname hmost', hentry]

/-- The other categories load as before if nothing changes but the files of one. -/
theorem load_other (hplace : s.directory = some directory) (hdirectory : s'.directory = s.directory)
    (hleads : t.Leads directory here)
    (hmost : ∀ category, t.HoldsFileAtMost (here ++ [fileName category])) {places : List (List String)}
    (hplaces : ∀ place ∈ places, place.getLast? = some (fileName category)) (hdiffer : DifferAmong places t t')
    {other : Category} (hother : other ≠ category) :
  s'.load t' other = s.load t other
  := by
  apply load_congr hdirectory
  intro place hplace'
  cases hplace.symm.trans hplace'
  have hoctets : t'.readOctets (directory.child (fileName other)) =
      t.readOctets (directory.child (fileName other)) := by
    apply readOctets_child_congr (isFileName_fileName other) hleads (hdiffer.sameFrame.leads hleads) (hmost other)
    apply hdiffer.elsewhere
    intro hmem
    have hname := hplaces _ hmem
    rw [List.getLast?_concat] at hname
    exact hother (fileName_injective (Option.some.inj hname))
  rw [readText, readText, hoctets]

theorem isWithin_self (place : List String) :
  isWithin place place = true
  :=
  List.isPrefixOf_iff_prefix.mpr List.prefix_rfl

/-- Where a file has been moved from, nothing is left. -/
theorem entry?_moved_old (hsound : t.IsSound) {name : String} (hold : t.HoldsFileAtMost (here ++ [name]))
    (hne : there ≠ here) :
  entry? (t.moved (here ++ [name]) (there ++ [name])) (here ++ [name]) = none
  := by
  rw [t.entry?_moved (by simp) (by simp)]
  split
  case isTrue hwithin =>
    obtain ⟨more, hmore⟩ := List.isPrefixOf_iff_prefix.mp hwithin
    have hnil : more ≠ [] := by
      rintro rfl
      rw [List.append_nil] at hmore
      exact hne (List.append_inj_left' hmore rfl)
    have hdrop : (here ++ [name]).drop (there ++ [name]).length = more := by
      rw [← hmore, List.drop_left]
    rw [hdrop]
    exact hsound.entry?_below hold.ne_directory hnil
  case isFalse => exact if_pos (isWithin_self _)

/-- A clear directory is ready if a file can be moved from it to its backup. -/
theorem exists_isReady_of_rename (hsound : t.IsSound) (hclear : IsClear directory t)
    (hrename : t.rename (directory.child (fileName category)) ((backup directory).child (fileName category)) =
      .ok t') :
  ∃ here there, IsReady directory t here there
  := by
  have hname := (isFileName_fileName category).isEntryName
  have hfound : ∃ found, t.find ((backup directory).child (fileName category)) false = .ok found := by
    rw [rename] at hrename
    cases hsource : t.find (directory.child (fileName category)) false with
    | error cause =>
      rw [hsource] at hrename
      cases hrename
    | ok found =>
      rw [hsource] at hrename
      cases hdestination : t.find ((backup directory).child (fileName category)) false with
      | ok found' => exact ⟨found', rfl⟩
      | error cause =>
        rw [hdestination] at hrename
        cases found <;> cases hrename
  obtain ⟨found, hfound⟩ := hfound
  obtain ⟨there, hthere⟩ := exists_leads_of_find hname hfound
  exact exists_isReady hsound (isDirectory_iff.mpr ⟨there, hthere.lookup (backup_nonempty directory)⟩) hclear

/-- A file can be put only where a directory is. -/
theorem exists_leads_of_writeAt {d : Path} {name : String} (hname : IsEntryName name) {octets : ByteArray}
    {modified : Nat} (h : t.writeAt (d.child name) octets modified = .ok t') :
  ∃ place, t.Leads d place
  := by
  cases hfind : t.find (d.child name) true with
  | ok found => exact exists_leads_of_find hname hfind
  | error e =>
    rw [writeAt, target, hfind] at h
    cases h

/-- A file that is cut off is found in its directory. -/
theorem differAmong_of_cutOff (hsound : t.IsSound) (hleads : t.Leads directory here)
    (hmost : t.HoldsFileAtMost (here ++ [fileName category])) {octets : ByteArray} {modified : Nat}
    (hwritten : t.writeAt (directory.child (fileName category)) octets modified = .ok t') :
  DifferAmong [here ++ [fileName category]] t t' ∧
    t'.readOctets (directory.child (fileName category)) = .ok octets
  := by
  have hname := isFileName_fileName category
  rw [hleads.writeAt_child hname hmost] at hwritten
  cases hwritten
  have hdiffer := DifferAmong.of_differAt (hleads.differAt_put hsound hmost octets modified) hsound
    (List.mem_singleton_self _) (List.forall_mem_singleton.mpr hmost)
  refine ⟨hdiffer, ?_⟩
  rw [(hdiffer.sameFrame.leads hleads).readOctets_child hname (hdiffer.atMost _ (List.mem_singleton_self _)),
    entry?_put (by simp), if_pos rfl]

/-- When the old file of a category has been moved to the backup, it is found there and nothing where it was, unless
this is the same place. -/
theorem IsReady.cases_of_rename (h : IsReady directory t here there)
    (hexists : t.exists (directory.child (fileName category)) = true)
    (hrename : t.rename (directory.child (fileName category))
      ((DirectoryStore.backup directory).child (fileName category)) = .ok t') :
  DifferAmong [here ++ [fileName category], there ++ [fileName category]] t t' ∧
    (there = here ∧ t' = t ∨ there ≠ here ∧
      t'.entry? (here ++ [fileName category]) = none ∧
      t'.entry? (there ++ [fileName category]) = t.entry? (here ++ [fileName category]))
  := by
  have hname := isFileName_fileName category
  obtain ⟨hmost, hmostThere⟩ := h.atMost category
  obtain ⟨octets, modified, hold⟩ := (exists_child h.leads hname hmost).mp hexists
  obtain ⟨_, hrename', hdiffer⟩ := exists_rename h.isSound h.leads h.backup hname hold hmostThere
  cases hrename.symm.trans hrename'
  refine ⟨hdiffer, ?_⟩
  rw [rename_child h.leads h.backup hname hold hmostThere] at hrename
  by_cases hsame : there = here
  · rw [if_pos hsame] at hrename
    cases hrename
    exact .inl ⟨hsame, rfl⟩
  · rw [if_neg hsame] at hrename
    cases hrename
    refine .inr ⟨hsame, entry?_moved_old h.isSound hmost hsame, ?_⟩
    rw [t.entry?_moved (by simp) (by simp), if_pos (isWithin_self _), List.drop_length, List.append_nil]

/-- When the write fails where there was no file, what is written at most is a new file. -/
theorem load_of_absent (hplace : s.directory = some directory) (hdirectory : s'.directory = s.directory)
    (hsound : t.IsSound) (hclear : IsClear directory t)
    (habsent : t.exists (directory.child (fileName category)) = false) {text : String}
    (hleaves : t.Leaves (.write (directory.child (fileName category)) text) t') :
  (∀ other ≠ category, s'.load t' other = s.load t other) ∧
    (s'.load t' category = s.load t category ∨ SetAside directory text t s' t' category)
  := by
  cases hleaves with
  | untouched =>
    have hsame (category : Category) : s'.load t category = s.load t category :=
      load_congr hdirectory fun _ _ => rfl
    exact ⟨fun other _ => hsame other, .inl (hsame category)⟩
  | cutOff hinitial hwritten =>
    obtain ⟨here, hleads⟩ := exists_leads_of_writeAt (isFileName_fileName category).isEntryName hwritten
    have hmost (category : Category) : t.HoldsFileAtMost (here ++ [fileName category]) :=
      (hclear category).1.of_leads (isFileName_fileName category) hleads
    obtain ⟨hdiffer, hoctets⟩ := differAmong_of_cutOff hsound hleads (hmost category) hwritten
    refine ⟨fun other => load_other hplace hdirectory hleads hmost (by simp) hdiffer, .inr ⟨?_, fun hexists => ?_⟩⟩
    · exact .inr ⟨_, _, hinitial, hoctets⟩
    · rw [habsent] at hexists
      cases hexists

/-- When the write fails after the old file has been moved, this is in the backup. -/
theorem load_of_moved (hplace : s.directory = some directory) (hdirectory : s'.directory = s.directory)
    (hready : IsReady directory t here there) (hexists : t.exists (directory.child (fileName category)) = true)
    (hrename : t.rename (directory.child (fileName category)) ((backup directory).child (fileName category)) =
      .ok moved) {text : String} (hleaves : moved.Leaves (.write (directory.child (fileName category)) text) t') :
  (∀ other ≠ category, s'.load t' other = s.load t other) ∧
    (s'.load t' category = s.load t category ∨ SetAside directory text t s' t' category)
  := by
  have hname := isFileName_fileName category
  obtain ⟨hdiffer, hcases⟩ := hready.cases_of_rename hexists hrename
  have hmoved := hready.of_differAmong hdiffer
  have hothers {other : Category} (hother : other ≠ category) : s'.load moved other = s.load t other :=
    load_other hplace hdirectory hready.leads (fun category => (hready.atMost category).1) (by simp) hdiffer hother
  cases hleaves with
  | untouched =>
    refine ⟨fun other => hothers, ?_⟩
    rcases hcases with ⟨-, rfl⟩ | ⟨-, hgone, hkept⟩
    · exact .inl (load_congr hdirectory fun _ _ => rfl)
    · refine .inr ⟨.inl (load_of_notFound (hdirectory.trans hplace) ?_), fun _ => .inl ?_⟩
      · rw [readText, hmoved.leads.readOctets_child hname (hmoved.atMost category).1, hgone]
        rfl
      · exact readOctets_child_congr hname hready.leads hmoved.backup (hready.atMost category).1 hkept
  | cutOff hinitial hwritten =>
    obtain ⟨hcut, hoctets⟩ :=
      differAmong_of_cutOff hmoved.isSound hmoved.leads (hmoved.atMost category).1 hwritten
    refine ⟨fun other hother => ?_, .inr ⟨.inr ⟨_, _, hinitial, hoctets⟩, fun _ => ?_⟩⟩
    · have hlater : s'.load t' other = s'.load moved other :=
        load_other (hdirectory.trans hplace) rfl hmoved.leads (fun category => (hmoved.atMost category).1) (by simp)
          hcut hother
      exact hlater.trans (hothers hother)
    · rcases hcases with ⟨rfl, -⟩ | ⟨hne, -, hkept⟩
      · exact .inr ⟨_, hready.leads, hready.backup⟩
      · refine .inl (readOctets_child_congr hname hready.leads (hcut.sameFrame.leads hmoved.backup)
          (hready.atMost category).1 ((hcut.elsewhere _ ?_).trans hkept))
        rw [List.mem_singleton]
        exact fun heq => hne (List.append_inj_left' heq rfl)

/-! ### A failing save -/

/-- If saving fails, what was stored is loaded as before, unless it is the write that fails.  If it is, and only
files stand under the names of the settings' files in the directory and its backup, the other categories are loaded
as before, and so is the category itself, or its new file is missing or cut off and the old one is in the backup. -/
theorem retains_of_saveWith (hact : MayFail act) (hsound : t.IsSound)
    (h : s.saveWith act t category value = (.error e, s', t')) :
  ∃ directory, s.directory = some directory ∧ s'.directory = some directory ∧
    ((∀ cause, e ≠ .unsaved (directory.child (fileName category)) cause) →
      ∀ other, Retains directory s s' t t' other) ∧
    (IsClear directory (s.made t) →
      (∀ other ≠ category, Retains directory s s' t t' other) ∧
      (Retains directory s s' t t' category ∨
        SetAside directory (content value) (s.made t) s' t' category))
  := by
  obtain ⟨directory, hplace, hplace', hcases⟩ := cases_of_saveWith hact h
  have hdirectory : s'.directory = s.directory := hplace'.trans hplace.symm
  refine ⟨directory, hplace, hplace', ?_⟩
  rcases hcases with hleaves | ⟨moved, hmoved, hleaves, cause, rfl⟩
  · have hretains (other : Category) : Retains directory s s' t t' other :=
      .of_begun hplace hleaves (load_congr hdirectory fun _ _ => rfl)
    exact ⟨fun _ => hretains, fun _ => ⟨fun other _ => hretains other, .inl (hretains category)⟩⟩
  · refine ⟨fun hcause => absurd rfl (hcause cause), fun hclear => ?_⟩
    have hmade : t.Leaves (.makeDirectories (backup directory)) (s.made t) := leaves_made hplace
    have hsoundMade := hsound.of_gains hmade.gains
    obtain ⟨hothers, hown⟩ : (∀ other ≠ category, s'.load t' other = s.load (s.made t) other) ∧
        (s'.load t' category = s.load (s.made t) category ∨
          SetAside directory (content value) (s.made t) s' t' category) := by
      cases hmoved with
      | absent habsent => exact load_of_absent hplace hdirectory hsoundMade hclear habsent hleaves
      | moved hexists hrename =>
        obtain ⟨here, there, hready⟩ := exists_isReady_of_rename hsoundMade hclear hrename
        exact load_of_moved hplace hdirectory hready hexists hrename hleaves
    exact ⟨fun other hother => .of_begun hplace hmade (hothers other hother), hown.imp_left (.of_begun hplace hmade)⟩

/-! ### Files that cannot be written -/

/-- Changes of a file system that no file can be written to. -/
def refusing (t : FileTree) : FileAction → Except FileError Unit × FileTree
  | .write _ _ => (.error .exists, t)
  | action => t.act action

/-- Changes of a file system that files can be put into, but without any text. -/
def emptying (t : FileTree) : FileAction → Except FileError Unit × FileTree
  | .write path _ => (.error .exists, (t.replacedBy (t.writeAt path .empty t.clock)).2)
  | action => t.act action

theorem mayFail_refusing :
  MayFail refusing
  := by
  intro t action
  cases action with
  | makeDirectories path => exact .inl rfl
  | move source destination => exact .inl rfl
  | write path text => exact .inr ⟨_, t, rfl, .untouched⟩

theorem mayFail_emptying :
  MayFail emptying
  := by
  intro t action
  cases action with
  | makeDirectories path => exact .inl rfl
  | move source destination => exact .inl rfl
  | write path text =>
    refine .inr ⟨_, _, rfl, ?_⟩
    cases hwritten : t.writeAt path .empty t.clock with
    | ok left => exact .cutOff ByteArray.empty_append hwritten
    | error cause => exact .untouched

/-- A directory with a backup in which the modules are stored, and some more entries. -/
def shelf (more : List (List String × Entry)) : FileTree :=
  { entries := [(["p"], .directory), (["p", "backup"], .directory),
      (["p", "modules.json"], .file "[\"a\"]".toUTF8 0)] ++ more }

/-- Whether a category loads something, if loading does not fail. -/
def holds? (s : DirectoryStore) (t : FileTree) (category : Category) : Option Bool :=
  (s.load t category).toOption.map (·.isSome)

/-- Modules that are cut off are set aside. -/
theorem retains_of_saveWith_shelf :
  ∃ e s' t', saveWith emptying ⟨some ⟨"/p"⟩, false⟩ (shelf []) .modules (.array []) = (.error e, s', t') ∧
    holds? ⟨some ⟨"/p"⟩, false⟩ (shelf []) .modules = some true ∧
    SetAside ⟨"/p"⟩ "[]\n" (shelf []) s' t' .modules ∧
    ∀ other ≠ .modules, Retains ⟨"/p"⟩ ⟨some ⟨"/p"⟩, false⟩ s' (shelf []) t' other
  := by
  have hsound : (shelf []).IsSound := isSound_of_entries (by decide) rfl nofun
  have hclear : IsClear ⟨"/p"⟩ (made ⟨some ⟨"/p"⟩, false⟩ (shelf [])) := by decide
  have hmade : made ⟨some ⟨"/p"⟩, false⟩ (shelf []) = shelf [] := by
    have hmake : (shelf []).makeAll (backup ⟨"/p"⟩) = (.ok (), shelf []) := makeAll_of_isDirectory (by decide)
    exact congrArg Prod.snd hmake
  generalize hsave : saveWith emptying ⟨some ⟨"/p"⟩, false⟩ (shelf []) .modules (.array []) = saved
  obtain ⟨hfailed, hbefore, hafter⟩ : saved.1.isOk = false ∧
      holds? ⟨some ⟨"/p"⟩, false⟩ (shelf []) .modules = some true ∧ holds? saved.2.1 saved.2.2 .modules = none := by
    subst hsave
    decide +kernel
  obtain ⟨result, s', t'⟩ := saved
  cases result with
  | ok => cases hfailed
  | error e =>
    obtain ⟨_, ⟨⟩, -, -, hwritten⟩ := retains_of_saveWith mayFail_emptying hsound hsave
    obtain ⟨hothers, hown⟩ := hwritten hclear
    refine ⟨e, s', t', rfl, hbefore, ?_, hothers⟩
    rcases hown with (heq | ⟨hnone, -⟩) | haside
    · rw [holds?, heq] at hafter
      cases hbefore.symm.trans hafter
    · rw [holds?, hnone] at hbefore
      cases hbefore
    · rwa [hmade] at haside

/-- A directory that is its own backup and in which the modules are stored. -/
def looped : FileTree :=
  { entries := [(["p"], .directory), (["p", "backup"], .link "."), (["p", "modules.json"], .file "[\"a\"]".toUTF8 0)] }

/-- What is loaded can change when saving fails: where the old file has been moved before the new one cannot be
written or is cut off, where making a directory uncovers another one's settings, where a file that is moved was the end
of another category's link, and where the backup's name for a file is a link by which the directory itself was found.
In a directory that is its own backup the old text is gone. -/
theorem not_load_eq_of_failed :
  let outcome (act : FileTree → FileAction → Except FileError Unit × FileTree) (s : DirectoryStore) (t : FileTree)
      (category other : Category) :=
    let saved := s.saveWith act t category (.array [])
    (saved.1.isOk, holds? s t other, holds? saved.2.1 saved.2.2 other)
  MayFail refusing ∧ MayFail emptying ∧
    outcome refusing ⟨some ⟨"/p"⟩, false⟩ (shelf []) .modules .modules = (false, some true, some false) ∧
    outcome emptying ⟨some ⟨"/p"⟩, false⟩ (shelf []) .modules .modules = (false, some true, none) ∧
    outcome refusing ⟨some ⟨"/p/x/.."⟩, false⟩ (shelf []) .scripts .modules = (false, some false, some true) ∧
    outcome refusing ⟨some ⟨"/p"⟩, false⟩ (shelf [(["p", "sys_path.json"], .link "modules.json")]) .modules .sysPath =
      (false, some true, some false) ∧
    outcome FileTree.act ⟨some ⟨"/p/backup/modules.json"⟩, false⟩
      (shelf [(["p", "backup", "modules.json"], .link "/p")]) .modules .modules = (false, some true, none) ∧
    outcome emptying ⟨some ⟨"/p"⟩, false⟩ looped .modules .modules = (false, some true, none) ∧
    ((saveWith emptying ⟨some ⟨"/p"⟩, false⟩ looped .modules (.array [])).2.2.readOctets
      ⟨"/p/backup/modules.json"⟩).toOption.map ByteArray.size = some 0
  := by
  refine ⟨mayFail_refusing, mayFail_emptying, ?_⟩
  decide +kernel

end DirectoryStore

end CallGraph
