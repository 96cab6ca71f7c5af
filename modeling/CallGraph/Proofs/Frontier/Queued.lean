import CallGraph.Frontier.Navigation
import CallGraph.Proofs.Recency.History
import CallGraph.Proofs.Signals
import Mathlib.Data.List.Nodup

/-!
# Highlights in a queue

Every selection has a highlight, under a handle of its own, and cancels the highlight of the selection before it.
`Queued` ties the selections to what the sink was told and to the highlights that are waiting or under way: both are
in the order of the selections, at most one for each, and the highlight of the last selection is among them as long
as nothing has cancelled it.  The lemmas take this through what happens to highlights: one is skipped, goes on, is
delivered, or is made for a new selection.
-/

namespace CallGraph

/-- Whether a sink may be told an event of an element, with the files as they were when its text was to be read: the
stretch to mark, or, if there is no place or its text cannot be read, that there is nothing to show. -/
def SinkEvent.Tells (files : FileTree) (e : Element) : SinkEvent → Prop
  | .render _ _ span => span = e.callPosition ∧ e.callPosition.path ≠ none
  | .reset => ∀ path, e.callPosition.path = some path → ∃ cause, files.readText path = .error cause

/-- What a highlighter tells of an element. -/
theorem Highlighter.tells_load {h : Highlighter} (hcache : h.cache.Holds fun _ _ => True) (files : FileTree)
    (e : Element) :
  (h.load files e).1.Tells files e ∧ (h.load files e).2.1.cache.Holds fun _ _ => True
  := by
  rw [load]
  split
  · rename_i hpath
    refine ⟨fun path hsome => ?_, hcache⟩
    cases hpath.symm.trans hsome
  rename_i path hpath
  have hplace : e.callPosition.path ≠ none := ne_of_eq_of_ne hpath (Option.some_ne_none _)
  split
  · exact ⟨⟨rfl, hplace⟩, hcache⟩
  · have hkept : (h.cache.getOrLoad path files.readText).2.Holds fun _ _ => True :=
      (hcache.getOrLoad (fun _ _ _ => id) fun _ _ => trivial).2
    split
    · rename_i text cache hread
      rw [TextCache.read] at hread
      rw [hread] at hkept
      exact ⟨⟨rfl, hplace⟩, hkept⟩
    · rename_i cause cache hread
      rw [TextCache.read] at hread
      have hfails := Recency.error_of_getOrLoad hcache (congrArg Prod.fst hread)
      rw [hread] at hkept
      refine ⟨fun other hother => ⟨cause, ?_⟩, hkept⟩
      cases hpath.symm.trans hother
      exact hfails

/-- What is known of an event that a highlight is to tell: it was made from the files as the highlight found them, or
the highlight was cancelled and resets the sink. -/
def SinkEvent.IsDue (read : List (Token × FileTree)) (c : Searches) (handle : Token) (e : Element)
    (event : SinkEvent) : Prop :=
  ∃ files, (handle, files) ∈ read ∧ (event.Tells files e ∨ (event = .reset ∧ c.isCancelled handle = true))

/-- What is known of a highlight that has come so far. -/
def Highlight.Stage.IsDue (read : List (Token × FileTree)) (c : Searches) (handle : Token) (e : Element) :
    Highlight.Stage → Prop
  | .queued => True
  | .loaded event => event.IsDue read c handle e
  | .checked event => event.IsDue read c handle e

/-- Selections, each with the handle of its highlight, in order; what the sink was told of them; the highlights that
are under way or waiting; and the files as highlights found them. -/
structure Queued (selections : List (Token × Node)) (told : List (Token × SinkEvent))
    (shows : List (Token × Highlight)) (read : List (Token × FileTree)) (c : Searches) : Prop where
  issued : ∀ x ∈ selections, c.Issued x.1
  nodup : (selections.map Prod.fst).Nodup
  /-- Every highlight but the last was cancelled. -/
  superseded : ∀ x ∈ selections.dropLast, c.isCancelled x.1 = true
  /-- The last was not, and it was not skipped. -/
  current : ∀ x, selections.getLast? = some x →
    c.isCancelled x.1 = false ∧ x.1 ∈ told.map Prod.fst ++ shows.map Prod.fst
  ordered : (told.map Prod.fst ++ shows.map Prod.fst).Sublist (selections.map Prod.fst)
  told : ∀ x ∈ told, ∃ node, (x.1, node) ∈ selections ∧ x.2.IsDue read c x.1 node.element
  shows : ∀ x ∈ shows, ∃ node, (x.1, node) ∈ selections ∧ x.2.element = node.element ∧
    x.2.stage.IsDue read c x.1 node.element

section Due

variable {read read' : List (Token × FileTree)} {c c' : Searches} {handle : Token} {e : Element}

theorem SinkEvent.IsDue.mono {event : SinkEvent} (h : event.IsDue read c handle e) (hread : ∀ x ∈ read, x ∈ read')
    (hcancelled : c.isCancelled handle = true → c'.isCancelled handle = true) :
  event.IsDue read' c' handle e
  := by
  obtain ⟨files, hfiles, htells⟩ := h
  exact ⟨files, hread _ hfiles, htells.imp_right fun ⟨heq, hold⟩ => ⟨heq, hcancelled hold⟩⟩

theorem Highlight.Stage.IsDue.mono {stage : Highlight.Stage} (h : stage.IsDue read c handle e)
    (hread : ∀ x ∈ read, x ∈ read') (hcancelled : c.isCancelled handle = true → c'.isCancelled handle = true) :
  stage.IsDue read' c' handle e
  := by
  cases stage with
  | queued => trivial
  | loaded event => exact SinkEvent.IsDue.mono h hread hcancelled
  | checked event => exact SinkEvent.IsDue.mono h hread hcancelled

/-- An event that is checked for the last time. -/
theorem SinkEvent.IsDue.check {event : SinkEvent} (h : event.IsDue read c handle e) :
  (Highlighter.check (c.isCancelled handle) event).IsDue read c handle e
  := by
  cases hcancelled : c.isCancelled handle with
  | false => exact h
  | true =>
    obtain ⟨files, hfiles, -⟩ := h
    exact ⟨files, hfiles, .inr ⟨rfl, hcancelled⟩⟩

end Due

namespace Queued

variable {selections : List (Token × Node)} {told : List (Token × SinkEvent)} {handle : Token} {x : Token × Highlight}
  {shows : List (Token × Highlight)} {read read' : List (Token × FileTree)} {c c' : Searches}

theorem empty (c : Searches) :
  Queued [] [] [] [] c
  where
  issued _ hx := absurd hx List.not_mem_nil
  nodup := .nil
  superseded _ hx := absurd hx List.not_mem_nil
  current _ hx := absurd hx nofun
  ordered := .slnil
  told _ hx := absurd hx List.not_mem_nil
  shows _ hx := absurd hx List.not_mem_nil

/-- Signals that leave the handles of highlights alone. -/
theorem congr (h : Queued selections told shows read c)
    (hcancelled : ∀ x ∈ selections, c'.isCancelled x.1 = c.isCancelled x.1)
    (hnext : c.signals.next ≤ c'.signals.next) :
  Queued selections told shows read c'
  where
  issued x hx := (h.issued x hx).mono hnext
  nodup := h.nodup
  superseded x hx := (hcancelled x (List.dropLast_subset _ hx)).trans (h.superseded x hx)
  current x hx := by
    obtain ⟨huncancelled, hmem⟩ := h.current x hx
    exact ⟨(hcancelled x (List.mem_of_getLast? hx)).trans huncancelled, hmem⟩
  ordered := h.ordered
  told x hx := by
    obtain ⟨node, hnode, hdue⟩ := h.told x hx
    exact ⟨node, hnode, hdue.mono (fun _ => id) fun hold => (hcancelled _ hnode).trans hold⟩
  shows x hx := by
    obtain ⟨node, hnode, helement, hdue⟩ := h.shows x hx
    exact ⟨node, hnode, helement, hdue.mono (fun _ => id) fun hold => (hcancelled _ hnode).trans hold⟩

/-- A task that is finished. -/
theorem finish (h : Queued selections told shows read c) (t : Token) :
  Queued selections told shows read { c with signals := c.signals.finish t }
  := by
  apply h.congr
  · exact fun x _ => c.signals.isCancelled_finish t x.1
  · exact Nat.le_of_eq (c.signals.next_finish t).symm

/-- A cancelled highlight is skipped. -/
theorem skip (h : Queued selections told (x :: shows) read c) (hcancelled : c.isCancelled x.1 = true) :
  Queued selections told shows read c
  where
  issued := h.issued
  nodup := h.nodup
  superseded := h.superseded
  current y hy := by
    obtain ⟨huncancelled, hmem⟩ := h.current y hy
    have hne : y.1 ≠ x.1 := fun heq => by
      rw [heq, hcancelled] at huncancelled
      cases huncancelled
    refine ⟨huncancelled, ?_⟩
    rw [List.map_cons, List.mem_append, List.mem_cons] at hmem
    exact List.mem_append.mpr (hmem.imp_right fun hmem => hmem.resolve_left hne)
  ordered := List.Sublist.trans ((List.sublist_cons_self _ _).append_left _) h.ordered
  told := h.told
  shows y hy := h.shows y (List.mem_cons_of_mem _ hy)

/-- A highlight goes on. -/
theorem resume {e : Element} {stage stage' : Highlight.Stage}
    (h : Queued selections told ((handle, ⟨e, stage⟩) :: shows) read c) (hread : ∀ x ∈ read, x ∈ read')
    (hdue : stage.IsDue read c handle e → stage'.IsDue read' c handle e) :
  Queued selections told ((handle, ⟨e, stage'⟩) :: shows) read' c
  where
  issued := h.issued
  nodup := h.nodup
  superseded := h.superseded
  current := h.current
  ordered := h.ordered
  told y hy := by
    obtain ⟨node, hnode, hold⟩ := h.told y hy
    exact ⟨node, hnode, hold.mono hread id⟩
  shows y hy := by
    rcases List.mem_cons.mp hy with rfl | hy
    · obtain ⟨node, hnode, helement, hold⟩ := h.shows _ List.mem_cons_self
      cases (helement : e = node.element)
      exact ⟨node, hnode, rfl, hdue hold⟩
    · obtain ⟨node, hnode, helement, hold⟩ := h.shows y (List.mem_cons_of_mem _ hy)
      exact ⟨node, hnode, helement, hold.mono hread id⟩

/-- A highlight is delivered. -/
theorem deliver {e : Element} {event : SinkEvent}
    (h : Queued selections told ((handle, ⟨e, .checked event⟩) :: shows) read c) :
  Queued selections (told ++ [(handle, event)]) shows read c
  where
  issued := h.issued
  nodup := h.nodup
  superseded := h.superseded
  current y hy := by
    simpa only [List.map_append, List.map_cons, List.map_nil, List.append_assoc, List.singleton_append] using
      h.current y hy
  ordered := by
    simpa only [List.map_append, List.map_cons, List.map_nil, List.append_assoc, List.singleton_append] using h.ordered
  told y hy := by
    rcases List.mem_append.mp hy with hy | hy
    · exact h.told y hy
    · obtain ⟨node, hnode, helement, hdue⟩ := h.shows _ List.mem_cons_self
      cases List.mem_singleton.mp hy
      exact ⟨node, hnode, hdue⟩
  shows y hy := h.shows y (List.mem_cons_of_mem _ hy)

/-- A highlight is made for a new selection, and the one before is cancelled. -/
theorem select (h : Queued selections told shows read c) (node : Node) (hfresh : ¬ c.Issued handle)
    (hissued : c'.Issued handle) (hnext : c.signals.next ≤ c'.signals.next)
    (hcancelled : ∀ x ∈ selections, c'.isCancelled x.1 = true) (huncancelled : c'.isCancelled handle = false) :
  Queued (selections ++ [(handle, node)]) told (shows ++ [(handle, { element := node.element })]) read c'
  where
  issued y hy := by
    rcases List.mem_append.mp hy with hy | hy
    · exact (h.issued y hy).mono hnext
    · cases List.mem_singleton.mp hy
      exact hissued
  nodup := by
    rw [List.map_append, List.map_cons, List.map_nil, List.nodup_append]
    refine ⟨h.nodup, List.nodup_singleton _, ?_⟩
    rintro _ hy _ hsingle rfl
    obtain ⟨z, hz, rfl⟩ := List.mem_map.mp hy
    have hsame : z.1 = handle := List.mem_singleton.mp hsingle
    exact hfresh (hsame ▸ h.issued z hz)
  superseded y hy := by
    rw [List.dropLast_concat] at hy
    exact hcancelled y hy
  current y hy := by
    rw [List.getLast?_concat] at hy
    cases hy
    refine ⟨huncancelled, List.mem_append_right _ ?_⟩
    simp
  ordered := by
    simpa only [List.map_append, List.map_cons, List.map_nil, List.append_assoc] using
      h.ordered.append (List.Sublist.refl [handle])
  told y hy := by
    obtain ⟨other, hother, hdue⟩ := h.told y hy
    exact ⟨other, List.mem_append_left _ hother, hdue.mono (fun _ => id) fun _ => hcancelled _ hother⟩
  shows y hy := by
    rcases List.mem_append.mp hy with hy | hy
    · obtain ⟨other, hother, helement, hdue⟩ := h.shows y hy
      exact ⟨other, List.mem_append_left _ hother, helement, hdue.mono (fun _ => id) fun _ => hcancelled _ hother⟩
    · cases List.mem_singleton.mp hy
      exact ⟨node, List.mem_append_right _ List.mem_cons_self, rfl, trivial⟩

/-- A column is put into focus: the highlight of the selection before is cancelled, and a new one made. -/
theorem refocus (h : Queued selections told shows read c) (hsound : c.Sound) (node : Node) :
  Queued (selections ++ [(.root c.signals.next, node)]) told
    (shows ++ [(.root c.signals.next, { element := node.element })]) read
    ((selections.getLast?.map Prod.fst).toList.foldl Searches.cancel { c with signals := c.signals.fresh.2 })
  := by
  have hfresh : ({ c with signals := c.signals.fresh.2 } : Searches).isCancelled (.root c.signals.next) = false := by
    rw [Bool.eq_false_iff]
    intro hcancelled
    apply Nat.lt_irrefl _ (hsound.cancelled _ hcancelled)
  cases hlast : selections.getLast? with
  | none =>
    rw [List.getLast?_eq_none_iff] at hlast
    subst hlast
    apply h.select node c.not_issued_next ⟨_, Nat.lt_succ_self _, rfl⟩ (Nat.le_succ _) nofun hfresh
  | some last =>
    obtain ⟨before, rfl⟩ := List.getLast?_eq_some_iff.mp hlast
    have hissued : c.Issued last.1 := h.issued _ (List.mem_append_right _ List.mem_cons_self)
    have hcancels : ∀ t, ({ c with signals := c.signals.fresh.2 } : Searches).isCancelled t = c.isCancelled t :=
      c.signals.isCancelled_fresh
    have hnext : (({ c with signals := c.signals.fresh.2 } : Searches).cancel last.1).signals.next =
        c.signals.next + 1 := Signals.next_cancel _ _
    apply h.select node c.not_issued_next
    · exact ⟨_, hnext ▸ Nat.lt_succ_self _, rfl⟩
    · exact hnext ▸ Nat.le_succ _
    · intro x hx
      apply (Searches.isCancelled_cancel _ _ _).mpr
      rcases List.mem_append.mp hx with hx | hx
      · right
        rw [hcancels]
        apply h.superseded
        rw [List.dropLast_concat]
        exact hx
      · left
        rw [List.mem_singleton.mp hx]
        apply Token.covers_self
    · rw [Bool.eq_false_iff]
      intro hcancelled
      rcases (Searches.isCancelled_cancel _ _ _).mp hcancelled with hcovers | hcancelled
      · rw [Token.covers_root_iff.mp hcovers] at hissued
        apply c.not_issued_next hissued
      · rw [hfresh] at hcancelled
        cases hcancelled

/-- Once no highlight is left, the last event is that of the last selection, made from the files as its highlight
found them. -/
theorem last_told (h : Queued selections told [] read c) {node : Node}
    (hlast : selections.getLast? = some (handle, node)) :
  ∃ event files, told.getLast? = some (handle, event) ∧ (handle, files) ∈ read ∧ event.Tells files node.element
  := by
  obtain ⟨huncancelled, hmem⟩ := h.current _ hlast
  rw [List.map_nil, List.append_nil] at hmem
  have hordered := h.ordered
  rw [List.map_nil, List.append_nil] at hordered
  obtain ⟨before, rfl⟩ := List.getLast?_eq_some_iff.mp hlast
  -- The handle of the last selection can only stand at the end of what was told.
  have hnodup := h.nodup
  rw [List.map_append, List.map_cons, List.map_nil] at hordered hnodup
  obtain ⟨first, rest, hsplit, hfirst, hrest⟩ := List.sublist_append_iff.mp hordered
  have hnotMem : handle ∉ first := fun hin =>
    (List.nodup_append.mp hnodup).2.2 _ (hfirst.subset hin) _ List.mem_cons_self rfl
  have hsingle : rest = [handle] := by
    rcases List.sublist_singleton.mp hrest with rfl | heq
    · rw [hsplit, List.append_nil] at hmem
      exact absurd hmem hnotMem
    · exact heq
  have htold : (told.getLast?).map Prod.fst = some handle := by
    rw [← List.getLast?_map, hsplit, hsingle, List.getLast?_concat]
  obtain ⟨⟨_, event⟩, hevent, rfl⟩ := Option.map_eq_some_iff.mp htold
  obtain ⟨other, hother, files, hfiles, htells⟩ := h.told _ (List.mem_of_getLast? hevent)
  have hsame : other = node := by
    have hpair := List.inj_on_of_nodup_map h.nodup hother (List.mem_append_right _ List.mem_cons_self) rfl
    exact congrArg Prod.snd hpair
  rw [hsame] at htells
  refine ⟨event, files, hevent, hfiles, htells.resolve_right fun ⟨_, hcancelled⟩ => ?_⟩
  rw [huncancelled] at hcancelled
  cases hcancelled

end Queued

end CallGraph
