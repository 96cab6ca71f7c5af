import CallGraph.Config
import Mathlib.Data.List.Induction

/-!
# What a configuration answers

A configuration is asked in the course of a history in which its overrides change, it is invalidated, and the files
under it change.  Whenever it is asked, each value is the override in force if there is one, else that of the
configuration file if it has one, else the default.  The file that counts is the one that was there when the
configuration was asked for the first time since it was invalidated for the last time, whatever became of it later.
-/

namespace CallGraph

/-- Each value is the override if there is one, else that of the file if it has one, else the default.  A text cache
holds one text at least. -/
structure ConfigValues.IsLayered (v : ConfigValues) (overrides file : ConfigLayer) : Prop where
  multithreading : v.multithreading = (overrides.multithreading <|> file.multithreading).getD true
  unicodeRoleMarkers : v.unicodeRoleMarkers = (overrides.unicodeRoleMarkers <|> file.unicodeRoleMarkers).getD true
  verboseErrors : v.verboseErrors = (overrides.verboseErrors <|> file.verboseErrors).getD false
  experimentalMode : v.experimentalMode = (overrides.experimentalMode <|> file.experimentalMode).getD false
  logLevel : v.logLevel = (overrides.logLevel <|> file.logLevel)
  textCacheSize : v.textCacheSize = max 1 ((overrides.textCacheSize <|> file.textCacheSize).getD 100)
  oneText : 1 ≤ v.textCacheSize

/-- A layer over another one over the defaults. -/
theorem ConfigLayer.isLayered_valuesOver (overrides file : ConfigLayer) :
  (overrides.valuesOver (file.valuesOver {})).IsLayered overrides file
  := by
  have hover {α : Type} (upper lower : Option α) (default : α) :
      upper.getD (lower.getD default) = (upper <|> lower).getD default := by
    cases upper <;> rfl
  have hsize : (overrides.valuesOver (file.valuesOver {})).textCacheSize =
      max 1 ((overrides.textCacheSize <|> file.textCacheSize).getD 100) := by
    have hdefault : max 1 100 = UInt64.ofNat TextCache.defaultCapacity := by decide
    unfold valuesOver
    cases overrides.textCacheSize with
    | some size => rfl
    | none =>
      cases file.textCacheSize with
      | some size => rfl
      | none => exact hdefault.symm
  constructor
  · exact hover _ _ _
  · exact hover _ _ _
  · exact hover _ _ _
  · exact hover _ _ _
  · change (overrides.logLevel <|> (file.logLevel <|> none)) = _
    cases overrides.logLevel with
    | some level => rfl
    | none => cases file.logLevel <;> rfl
  · exact hsize
  · rw [hsize]
    change 1 ≤ if _ ≤ _ then _ else _
    split
    · assumption
    · exact UInt64.le_refl 1

namespace UserConfig

/-- What the configuration file of a directory sets.  A file that is missing, cannot be read or is malformed sets
nothing. -/
def layerIn (directory : Option Path) (files : FileTree) : ConfigLayer :=
  match directory with
  | none => {}
  | some directory =>
    if files.isFile (directory.child fileName) then
      match files.readText (directory.child fileName) with
      | .error _ => {}
      | .ok text => (ConfigLayer.ofText? text).getD {}
    else {}

theorem fileLayer_getD (c : UserConfig) (files : FileTree) :
  (c.fileLayer files).toOption.getD {} = layerIn c.directory files
  := by
  unfold fileLayer layerIn file?
  cases c.directory with
  | none => rfl
  | some directory =>
    dsimp only [Option.map_some]
    split
    case isFalse => rfl
    case isTrue =>
      cases files.readText (directory.child fileName) with
      | error cause => rfl
      | ok text =>
        dsimp only
        cases ConfigLayer.ofText? text <;> rfl

/-- The layers are merged. -/
theorem isLayered_merge (c : UserConfig) (files : FileTree) :
  (c.merge files).1.IsLayered c.overrides (layerIn c.directory files)
  := by
  rw [← fileLayer_getD]
  unfold merge
  cases c.fileLayer files with
  | ok layer => exact c.overrides.isLayered_valuesOver layer
  | error e => exact c.overrides.isLayered_valuesOver {}

/-! ### Histories -/

/-- What happens to a configuration and to the files under it. -/
inductive Event where
  | get
  | override (update : ConfigLayer → ConfigLayer)
  | invalidate
  /-- Files are written or removed, or whatever else leads to other ones. -/
  | edit (files : FileTree)

namespace Event

/-- Whether an event makes a configuration forget the merged values. -/
def forgets : Event → Bool
  | override _ | invalidate => true
  | get | edit _ => false

/-- Whether a configuration is asked. -/
def asks : Event → Bool
  | get => true
  | _ => false

/-- The configuration and the files after an event. -/
def act (s : UserConfig × FileTree) : Event → UserConfig × FileTree
  | get => ((s.1.get s.2).2.1, s.2)
  | override update => (s.1.override (update s.1.overrides), s.2)
  | invalidate => (s.1.invalidate, s.2)
  | edit files => (s.1, files)

/-- The overrides after an event. -/
def overrides (layer : ConfigLayer) : Event → ConfigLayer
  | override update => update layer
  | _ => layer

/-- The files after an event. -/
def files (files : FileTree) : Event → FileTree
  | edit files => files
  | _ => files

end Event

/-- What a configuration answers that is asked after a history. -/
def answer (directory : Option Path) (files : FileTree) (history : List Event) : ConfigValues :=
  let s := history.foldl Event.act ({ directory }, files)
  (s.1.get s.2).1

/-- A history that is cut after its last event that makes the configuration forget. -/
structure IsCut (before since : List Event) : Prop where
  before : ∀ e ∈ before.getLast?, e.forgets = true
  since : ∀ e ∈ since, e.forgets = false

/-- Every history can be cut. -/
theorem exists_isCut (history : List Event) :
  ∃ before since, history = before ++ since ∧ IsCut before since
  := by
  induction history using List.reverseRecOn with
  | nil => exact ⟨[], [], rfl, nofun, nofun⟩
  | append_singleton history e ih =>
    cases he : e.forgets with
    | true =>
      refine ⟨history ++ [e], [], (List.append_nil _).symm, fun last hlast => ?_, nofun⟩
      rw [List.getLast?_concat] at hlast
      cases hlast
      exact he
    | false =>
      obtain ⟨before, since, rfl, hbefore, hsince⟩ := ih
      refine ⟨before, since ++ [e], List.append_assoc before since [e], hbefore, fun later hlater => ?_⟩
      rcases List.mem_append.mp hlater with hlater | hlater
      · exact hsince later hlater
      · rw [List.mem_singleton.mp hlater]
        exact he

/-! ### What is kept of a history -/

variable {c : UserConfig} {files : FileTree} {history since : List Event}

/-- What the configuration is apart from the merged values, and the files under it. -/
theorem after_spec (s : UserConfig × FileTree) (history : List Event) :
  (history.foldl Event.act s).1.directory = s.1.directory ∧
    (history.foldl Event.act s).1.overrides = history.foldl Event.overrides s.1.overrides ∧
    (history.foldl Event.act s).2 = history.foldl Event.files s.2
  := by
  induction history generalizing s with
  | nil => exact ⟨rfl, rfl, rfl⟩
  | cons e history ih =>
    obtain ⟨hdirectory, hoverrides, hfiles⟩ := ih (e.act s)
    rw [List.foldl_cons, hdirectory, hoverrides, hfiles]
    cases e with
    | get =>
      obtain ⟨⟨directory, overrides, merged⟩, files⟩ := s
      cases merged <;> exact ⟨rfl, rfl, rfl⟩
    | _ => exact ⟨rfl, rfl, rfl⟩

/-- Whoever asks finds the merged values kept. -/
theorem act_get (c : UserConfig) (files : FileTree) :
  Event.act (c, files) .get = ({ c with merged := some (c.get files).1 }, files)
  := by
  obtain ⟨directory, overrides, merged⟩ := c
  cases merged <;> rfl

/-- Merged values are kept as long as nothing makes the configuration forget them. -/
theorem after_of_merged {values : ConfigValues} (hc : c.merged = some values)
    (hsince : ∀ e ∈ since, e.forgets = false) (files : FileTree) :
  since.foldl Event.act (c, files) = (c, since.foldl Event.files files)
  := by
  induction since generalizing files with
  | nil => rfl
  | cons e since ih =>
    have hrest := ih fun e he => hsince e (List.mem_cons_of_mem _ he)
    cases e with
    | get =>
      have hget : { c with merged := some (c.get files).1 } = c := by rw [get, hc, ← hc]
      rw [List.foldl_cons, act_get, hget]
      exact hrest files
    | edit files' => exact hrest files'
    | override update => cases hsince _ List.mem_cons_self
    | invalidate => cases hsince _ List.mem_cons_self

/-- A configuration that has forgotten answers with what it merges when it is asked for the first time. -/
theorem get_of_forgotten (hc : c.merged = none) (hsince : ∀ e ∈ since, e.forgets = false) (files : FileTree) :
  ((since.foldl Event.act (c, files)).1.get (since.foldl Event.act (c, files)).2).1 =
    (c.merge ((since.takeWhile fun e => !e.asks).foldl Event.files files)).1
  := by
  induction since generalizing files with
  | nil =>
    change (c.get files).1 = (c.merge files).1
    rw [get, hc]
  | cons e since ih =>
    have hrest : ∀ e ∈ since, e.forgets = false := fun e he => hsince e (List.mem_cons_of_mem _ he)
    cases e with
    | get =>
      have hget : (c.get files).1 = (c.merge files).1 := by rw [get, hc]
      rw [List.foldl_cons, act_get, after_of_merged rfl hrest, hget]
      rfl
    | edit files' => exact ih hrest files'
    | override update => cases hsince _ List.mem_cons_self
    | invalidate => cases hsince _ List.mem_cons_self

/-- What is merged is forgotten after the last event of the first part of a cut history. -/
theorem IsCut.merged {before : List Event} (h : IsCut before since) (directory : Option Path) (files : FileTree) :
  (before.foldl Event.act ({ directory }, files)).1.merged = none
  := by
  cases hlast : before.getLast? with
  | none =>
    rw [List.getLast?_eq_none_iff.mp hlast]
    rfl
  | some e =>
    obtain ⟨earlier, rfl⟩ := List.getLast?_eq_some_iff.mp hlast
    have he := h.before e hlast
    rw [List.foldl_append]
    cases e with
    | get => cases he
    | edit files => cases he
    | override update => rfl
    | invalidate => rfl

/-- Events that do not make the configuration forget leave the overrides alone. -/
theorem overrides_of_not_forgets (hsince : ∀ e ∈ since, e.forgets = false) (layer : ConfigLayer) :
  since.foldl Event.overrides layer = layer
  := by
  induction since with
  | nil => rfl
  | cons e since ih =>
    have hrest := ih fun e he => hsince e (List.mem_cons_of_mem _ he)
    cases e with
    | get => exact hrest
    | edit files => exact hrest
    | override update => cases hsince _ List.mem_cons_self
    | invalidate => cases hsince _ List.mem_cons_self

/-! ### Answers -/

/-- Whenever a configuration is asked, its values are layered: the overrides in force, over the configuration file as it
was when the configuration was first asked since it last forgot, over the defaults.  What it answers once, it answers
until it forgets, whatever happens to the file. -/
theorem answer_layered (directory : Option Path) (files : FileTree) (history : List Event) :
  (∃ before since, history = before ++ since ∧ IsCut before since) ∧
    (∀ before since, history = before ++ since → IsCut before since →
      (answer directory files history).IsLayered (history.foldl Event.overrides {})
        (layerIn directory ((before ++ since.takeWhile fun e => !e.asks).foldl Event.files files))) ∧
    ∀ since, (∀ e ∈ since, e.forgets = false) →
      answer directory files (history ++ .get :: since) = answer directory files history
  := by
  refine ⟨exists_isCut history, ?_, ?_⟩
  · rintro before since rfl hcut
    obtain ⟨hdirectory, hoverrides, hfiles⟩ := after_spec ({ directory }, files) before
    have hmerged := hcut.merged directory files
    unfold answer
    simp only [List.foldl_append]
    generalize before.foldl Event.act ({ directory }, files) = s at *
    obtain ⟨c, files'⟩ := s
    rw [get_of_forgotten hmerged hcut.since, overrides_of_not_forgets hcut.since]
    have hlayered := c.isLayered_merge ((since.takeWhile fun e => !e.asks).foldl Event.files files')
    rw [hdirectory, hoverrides] at hlayered
    rw [← hfiles]
    exact hlayered
  · intro since hsince
    unfold answer
    simp only [List.foldl_append, List.foldl_cons]
    generalize history.foldl Event.act ({ directory }, files) = s
    obtain ⟨c, files'⟩ := s
    rw [act_get, after_of_merged rfl hsince]
    rfl

/-! ### A file that is overwritten -/

/-- The files with some text in the configuration file of `/r`. -/
def configured (text : String) : FileTree :=
  { entries := [(["r"], .directory), (["r", fileName], .file text.toUTF8 0)] }

/-- The configuration is asked before its file is overwritten, and is overridden then. -/
def overwritten : List Event :=
  [.get, .edit (configured "experimental_mode = false\n"),
    .override fun layer => { layer with verboseErrors := some true }]

/-- The file is overwritten once more, and the configuration is asked before it is removed. -/
def removed : List Event :=
  [.edit (configured "text_cache_size = 0\n"), .get, .edit {}]

/-- What counts is the file that was there when the configuration was asked after it was overridden. -/
theorem answer_layered_removed :
  ∃ v, answer (some ⟨"/r"⟩) (configured "experimental_mode = true\n") (overwritten ++ removed) = v ∧
    answer (some ⟨"/r"⟩) (configured "experimental_mode = true\n") (overwritten ++ removed ++ [.get, .edit {}]) = v ∧
    v.IsLayered { verboseErrors := some true } { textCacheSize := some 0 }
  := by
  obtain ⟨-, hlayered, hkept⟩ :=
    answer_layered (some ⟨"/r"⟩) (configured "experimental_mode = true\n") (overwritten ++ removed)
  have hcut : IsCut overwritten removed := by
    refine ⟨fun e he => ?_, by decide⟩
    cases he
    rfl
  have hfile : layerIn (some ⟨"/r"⟩) (configured "text_cache_size = 0\n") = { textCacheSize := some 0 } := by
    decide +kernel
  have hvalues := hlayered overwritten removed rfl hcut
  exact ⟨_, rfl, hkept [.edit {}] (by decide), hfile ▸ hvalues⟩

end UserConfig

end CallGraph
