import CallGraph.Proofs.Frontier.Meanwhile

/-!
# Expansions and the selections they are for

Every expansion that is not finished is that of a selection that stands, or was cancelled; and a selection that stands
has an expansion under way, or one that is finished.  So whoever takes back all selections cancels all expansions, and
when nothing is left to do every selection has been expanded.
-/

namespace CallGraph

/-- How the expansions that are not finished, here by their handles, go with the selections that stand; `aside` are the
handles of highlights. -/
structure Attended (c : Searches) (standing : List Pending) (handles aside : List Token) : Prop where
  unfinished : ∀ t ∈ handles, c.signals.isFinished t = false
  wanted : ∀ t ∈ handles, c.isCancelled t ∨ ∃ p ∈ standing, p.handle = t
  expanded : ∀ p ∈ standing, c.signals.isFinished p.handle ∨ p.handle ∈ handles
  apart : ∀ p ∈ standing, p.handle ∉ aside

namespace Attended

variable {c c' : Searches} {standing : List Pending} {handles handles' aside aside' : List Token}

/-- Expansions that change hands. -/
theorem perm (h : Attended c standing handles aside) (hperm : handles.Perm handles') :
  Attended c standing handles' aside
  where
  unfinished t ht := h.unfinished t (hperm.mem_iff.mpr ht)
  wanted t ht := h.wanted t (hperm.mem_iff.mpr ht)
  expanded p hp := (h.expanded p hp).imp id hperm.mem_iff.mp
  apart := h.apart

/-- Changes that are confined to highlights. -/
theorem confine (h : Attended c standing handles aside) (hc : c.Confined aside aside' c')
    (hhandles : ∀ t ∈ handles, c.Issued t ∧ t ∉ aside) (hstanding : ∀ p ∈ standing, c.Issued p.handle) :
  Attended c' standing handles aside'
  := by
  constructor
  · intro t ht
    rw [hc.finished t (hhandles t ht).1 (hhandles t ht).2]
    exact h.unfinished t ht
  · intro t ht
    rw [hc.cancelled t (hhandles t ht).1 (hhandles t ht).2]
    exact h.wanted t ht
  · intro p hp
    rw [hc.finished p.handle (hstanding p hp) (h.apart p hp)]
    exact h.expanded p hp
  · exact fun p hp => hc.apart p.handle (hstanding p hp) (h.apart p hp)

/-- An expansion that ends. -/
theorem finish {t : Token} (h : Attended c standing (t :: handles) aside) (hnodup : (t :: handles).Nodup) :
  Attended { c with signals := c.signals.finish t } standing handles aside
  := by
  have hfinished (u : Token) : (c.signals.finish t).isFinished u ↔ u = t ∨ c.signals.isFinished u :=
    c.signals.isFinished_finish t u
  constructor
  · intro u hu
    rw [Bool.eq_false_iff]
    intro hend
    rcases (hfinished u).mp hend with rfl | hend
    · exact (List.nodup_cons.mp hnodup).1 hu
    · rw [h.unfinished u (List.mem_cons_of_mem _ hu)] at hend
      cases hend
  · intro u hu
    have hcancelled : ({ c with signals := c.signals.finish t } : Searches).isCancelled u = c.isCancelled u :=
      c.signals.isCancelled_finish t u
    rw [hcancelled]
    exact h.wanted u (List.mem_cons_of_mem _ hu)
  · intro p hp
    rcases h.expanded p hp with hend | hmem
    · exact .inl ((hfinished _).mpr (.inr hend))
    · rcases List.mem_cons.mp hmem with heq | hmem
      · exact .inl ((hfinished _).mpr (.inl heq))
      · exact .inr hmem
  · exact h.apart

/-- The selections from a column on are taken back, and their expansions cancelled. -/
theorem take {slots : List Slot} (h : Attended c standing handles aside) (hlined : Lined slots standing) {index : Nat}
    (hc : c.Cancels (pendings (slots.drop index)) c') :
  Attended c' (standing.take index) handles aside
  := by
  constructor
  · intro t ht
    rw [hc.isFinished]
    exact h.unfinished t ht
  · intro t ht
    rcases h.wanted t ht with hcancelled | ⟨p, hp, rfl⟩
    · exact .inl (hc.keeps t hcancelled)
    · obtain ⟨i, hi⟩ := List.getElem?_of_mem hp
      rcases Nat.lt_or_ge i index with hlt | hge
      · refine .inr ⟨p, List.mem_of_getElem? (i := i) ?_, rfl⟩
        rw [List.getElem?_take_of_lt hlt, hi]
      · rcases hc.handles p (hlined.mem_pendings hi hge) with hfinished | hcancelled
        · rw [h.unfinished _ ht] at hfinished
          cases hfinished
        · exact .inl hcancelled
  · intro p hp
    rw [hc.isFinished]
    exact h.expanded p (List.mem_of_mem_take hp)
  · exact fun p hp => h.apart p (List.mem_of_mem_take hp)

/-- A row is selected, and its expansion is one of those that are not finished. -/
theorem concat (h : Attended c standing handles aside) {p : Pending}
    (hunfinished : c.signals.isFinished p.handle = false) (hapart : p.handle ∉ aside) :
  Attended c (standing ++ [p]) (p.handle :: handles) aside
  := by
  constructor
  · intro t ht
    rcases List.mem_cons.mp ht with rfl | ht
    · exact hunfinished
    · exact h.unfinished t ht
  · intro t ht
    rcases List.mem_cons.mp ht with rfl | ht
    · exact .inr ⟨p, List.mem_concat_self, rfl⟩
    · exact (h.wanted t ht).imp id fun ⟨q, hq, heq⟩ => ⟨q, List.mem_append_left _ hq, heq⟩
  · intro q hq
    rcases List.mem_append.mp hq with hq | hq
    · exact (h.expanded q hq).imp id (List.mem_cons_of_mem _)
    · rw [List.mem_singleton.mp hq]
      exact .inr List.mem_cons_self
  · intro q hq
    rcases List.mem_append.mp hq with hq | hq
    · exact h.apart q hq
    · rw [List.mem_singleton.mp hq]
      exact hapart

end Attended

namespace Session

variable {σ : Type} {s s' : Session σ}

/-- Whether the expansions of a session go with its selections. -/
def IsAttended (s : Session σ) : Prop :=
  Attended s.searches s.standing (s.tasks.map Prod.fst) s.navigation.frontier.shown

/-- The handles of the expansions are given out, and none is that of a highlight. -/
theorem IsOrderly.issued_of_mem (h : s.IsOrderly) {t : Token} (ht : t ∈ s.tasks.map Prod.fst) :
  s.searches.Issued t ∧ t ∉ s.navigation.frontier.shown
  := by
  obtain ⟨x, hx, rfl⟩ := List.mem_map.mp ht
  exact ⟨h.orderly.issued x hx, h.orderly.apart x hx⟩

namespace IsAttended

/-- Changes that are confined to highlights. -/
theorem confine (h : s.IsAttended) (horderly : s.IsOrderly) {c : Searches} {aside : List Token}
    (hc : s.searches.Confined s.navigation.frontier.shown aside c) :
  Attended c s.standing (s.tasks.map Prod.fst) aside
  :=
  Attended.confine h hc (fun _ => horderly.issued_of_mem) fun _ => horderly.orderly.standing_issued

/-- The selections from a column on are taken back, under a new handle or under none. -/
theorem take (h : s.IsAttended) (horderly : s.IsOrderly) {c c' : Searches} (hspares : s.searches.Spares c) {index : Nat}
    (hc : c.Cancels (pendings (s.slots.drop index)) c') :
  Attended c' (s.standing.take index) (s.tasks.map Prod.fst) s.navigation.frontier.shown
  :=
  (h.confine horderly (.ofSpares hspares)).take horderly.orderly.lined hc

theorem setRoots (h : s.IsAttended) (horderly : s.IsOrderly) (nodes : List Node) :
  (s.perform (.setRoots nodes)).IsAttended
  :=
  h.take horderly (.refl _) (cancelFrom_cancels 0 _ _)

theorem removeRoots (h : s.IsAttended) (horderly : s.IsOrderly) (nodes : List Node) :
  (s.perform (.removeRoots nodes)).IsAttended
  := by
  obtain ⟨root, rest, hslots, -⟩ := horderly.exists_root
  cases hloses : s.losesRoot nodes with
  | true =>
    rw [perform_removeRoots_of_losesRoot hslots hloses]
    exact h.take horderly (.refl _) (cancelFrom_cancels 0 _ _)
  | false =>
    obtain ⟨row, hperform, -⟩ := perform_removeRoots_of_not_losesRoot hslots hloses
    rw [hperform]
    exact h

theorem select (h : s.IsAttended) (horderly : s.IsOrderly) (column row : Nat) :
  (s.perform (.select column row)).IsAttended
  := by
  cases hslot : s.navigation.frontier.slots[column]? with
  | none =>
    simp only [perform, Navigation.choose, Frontier.choose, hslot]
    exact h
  | some slot =>
    cases hnode : slot.column.nodes[row]? with
    | none =>
      simp only [perform, Navigation.choose, Frontier.choose, hslot, hnode]
      exact h
    | some node =>
      simp only [perform, Navigation.choose, Frontier.choose, hslot, hnode]
      have hcancels := cancelFrom_cancels column s.slots { s.searches with signals := s.searches.signals.fresh.2 }
      have htake := h.take horderly s.searches.spares_fresh hcancels
      -- The new handle was given out just now, so nothing is finished under it and no highlight has it.
      refine htake.concat (p := ⟨.root s.searches.signals.next, node⟩) ?_ ?_
      · rw [Bool.eq_false_iff, hcancels.isFinished]
        exact fun hfinished => Nat.lt_irrefl _ (horderly.orderly.sound.finished _ hfinished)
      · exact fun hmem => s.searches.not_issued_next (horderly.orderly.asideIssued _ hmem)

theorem perform (h : s.IsAttended) (horderly : s.IsOrderly) (command : Navigation.Command) :
  (s.perform command).IsAttended
  := by
  cases command with
  | setRoots nodes => exact h.setRoots horderly nodes
  | addRoots nodes => exact h
  | removeRoots nodes => exact h.removeRoots horderly nodes
  | select column row => exact h.select horderly column row

theorem work (h : s.IsAttended) (horderly : s.IsOrderly) (hwork : Work s s') :
  s'.IsAttended
  := by
  rw [IsAttended, hwork.keeps.1]
  cases hwork.effect horderly.orderly.asideIssued with
  | aside tasks searches slots found => exact (h.confine horderly searches).perm (tasks.map Prod.fst)
  | reply handle column r next others tasks tasks' searches shown slots found =>
    have hspares := s.navigation.workspace.perform_spares horderly.provider r
    rw [searches, shown]
    exact (h.confine horderly (.ofSpares hspares)).perm ((tasks.map Prod.fst).trans (tasks'.map Prod.fst).symm)
  | publish handle column nodes others tasks tasks' searches shown slots found =>
    rw [searches, shown]
    exact Attended.perm h ((tasks.map Prod.fst).trans (tasks'.map Prod.fst).symm)
  | finish handle e others tasks tasks' idle searches shown slots found =>
    have hperm := tasks.map Prod.fst
    rw [searches, shown]
    exact ((Attended.perm h hperm).finish (hperm.nodup_iff.mp horderly.orderly.nodup)).perm (tasks'.map Prod.fst).symm

theorem step (h : s.IsAttended) (horderly : s.IsOrderly) (hstep : Step s s') :
  s'.IsAttended
  := by
  cases hstep with
  | command command => exact h.perform horderly command
  | work work => exact h.work horderly work
  | elsewhere workspace provider spares => exact h.confine horderly (.ofSpares spares)

end IsAttended

/-- In every session that can come about, the expansions go with the selections. -/
theorem Reachable.isAttended {w : Workspace σ} {cacheSize : Nat} (hp : w.provider.SparesHandles)
    (h : Reachable w cacheSize s) :
  s.IsAttended
  := by
  induction h with
  | refl => exact ⟨nofun, nofun, nofun, nofun⟩
  | tail hreachable hstep ih => exact ih.step (Reachable.isOrderly hp hreachable) hstep

/-- When nothing is left to do, all selections are expanded. -/
theorem IsAttended.isFinished_of_isDrained (h : s.IsAttended) (hdrained : s.IsDrained) {p : Pending}
    (hp : p ∈ s.standing) :
  s.searches.signals.isFinished p.handle
  := by
  rcases h.expanded p hp with hfinished | hmem
  · exact hfinished
  · rw [hdrained] at hmem
    cases hmem

end Session

end CallGraph
