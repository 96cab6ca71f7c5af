import CallGraph.Proofs.SearchScope
import CallGraph.Proofs.Source.Backward
import Mathlib.Data.List.Lex
import Mathlib.Data.Prod.Lex
import Mathlib.Data.String.Basic

/-!
# The files searched for usages

The files that are searched for the usages of a definition are in order and each is searched once.  So a search
does not change when the scope is widened by files that were searched already: the usages found in the wider
scope are those found before, but for the spelling of paths.
-/

namespace CallGraph

/-! ### The order of paths -/

namespace Path

/-- What components are ordered by. -/
def Component.key (a : Component) : ℕ ×ₗ String :=
  toLex (a.rank, a.text)

theorem Component.key_inj {a b : Component} (h : a.key = b.key) :
  a = b
  := by
  obtain ⟨hrank, htext⟩ : (ofLex a.key).1 = (ofLex b.key).1 ∧ (ofLex a.key).2 = (ofLex b.key).2 :=
    Prod.ext_iff.mp (congrArg ofLex h)
  cases a with
  | name s =>
    cases b with
    | name t => exact congrArg Component.name htext
    | root | here | up => cases hrank
  | root | here | up => cases b <;> first | rfl | cases hrank

theorem Component.before_iff {a b : Component} :
  a.before b = true ↔ a.key < b.key
  := by
  unfold key
  rw [Prod.Lex.toLex_lt_toLex]
  cases a with
  | name s =>
    cases b with
    | name t =>
      change decide (s < t) = true ↔ 3 < 3 ∨ 3 = 3 ∧ s < t
      simp only [decide_eq_true_eq, lt_irrefl, true_and, false_or]
    | root | here | up => simp [before, rank]
  | root | here | up => cases b <;> simp [before, rank]

/-- What paths are ordered by. -/
def keys (p : Path) : List (ℕ ×ₗ String) :=
  p.components.map Component.key

theorem beq_iff_keys {p q : Path} :
  (p == q) = true ↔ p.keys = q.keys
  := by
  rw [beq_iff, keys, keys]
  constructor
  · exact congrArg _
  · exact fun h => List.map_injective_iff.mpr (fun _ _ => Component.key_inj) h

theorem componentsBefore_iff {as bs : List Component} :
  componentsBefore as bs = true ↔ as.map Component.key < bs.map Component.key
  := by
  induction as generalizing bs with
  | nil =>
    cases bs with
    | nil => simp [componentsBefore]
    | cons b bs => simp [componentsBefore]
  | cons a as ih =>
    cases bs with
    | nil => simp [componentsBefore]
    | cons b bs =>
      rw [componentsBefore, List.map_cons, List.map_cons, List.cons_lt_cons_iff, ← Component.before_iff]
      cases hab : a.before b with
      | true => simp
      | false =>
        cases hba : b.before a with
        | true =>
          have hne : a.key ≠ b.key := (Component.before_iff.mp hba).ne'
          simp [hne]
        | false =>
          have hnot : ¬ a.key < b.key := fun h => Bool.false_ne_true (hab ▸ Component.before_iff.mpr h)
          have hnot' : ¬ b.key < a.key := fun h => Bool.false_ne_true (hba ▸ Component.before_iff.mpr h)
          have heq : a.key = b.key := le_antisymm (not_lt.mp hnot') (not_lt.mp hnot)
          simp [ih, heq]

theorem before_iff {p q : Path} :
  p.before q = true ↔ p.keys < q.keys
  :=
  componentsBefore_iff

theorem notBefore_iff {p q : Path} :
  (!q.before p) = true ↔ p.keys ≤ q.keys
  := by
  rw [Bool.not_eq_true', ← Bool.not_eq_true, before_iff, not_lt]

theorem notBefore_trans (p q r : Path) (hpq : (!q.before p) = true) (hqr : (!r.before q) = true) :
  (!r.before p) = true
  :=
  notBefore_iff.mpr (le_trans (notBefore_iff.mp hpq) (notBefore_iff.mp hqr))

theorem notBefore_total (p q : Path) :
  (!q.before p || !p.before q) = true
  := by
  rw [Bool.or_eq_true, notBefore_iff, notBefore_iff]
  apply le_total p.keys q.keys

/-- Sorted paths stand in order. -/
theorem pairwise_sort (paths : List Path) :
  (sort paths).Pairwise (·.keys ≤ ·.keys)
  :=
  (List.pairwise_mergeSort notBefore_trans notBefore_total paths).imp fun h => notBefore_iff.mp h

/-- Sorting leaves equal paths in their order. -/
theorem filter_sort (paths : List Path) (p : Path) :
  (sort paths).filter (· == p) = paths.filter (· == p)
  := by
  have hequal : (paths.filter (· == p)).Pairwise fun q r => (!r.before q) = true := by
    apply List.pairwise_of_forall_mem_list
    intro q hq r hr
    rw [notBefore_iff, beq_iff_keys.mp (List.mem_filter.mp hq).2, beq_iff_keys.mp (List.mem_filter.mp hr).2]
  have hsublist : (paths.filter (· == p)).Sublist (sort paths) :=
    List.sublist_mergeSort notBefore_trans notBefore_total hequal List.filter_sublist
  have hfiltered := hsublist.filter (· == p)
  simp only [List.filter_filter, Bool.and_self] at hfiltered
  exact (hfiltered.eq_of_length (((List.mergeSort_perm _ _).filter _).length_eq).symm).symm

end Path

namespace Source

variable {files : FileTree} {searchPath : List Path}

namespace Survey

/-- Ordered paths without those that equal the one before them are strictly ordered. -/
theorem pairwise_withoutRuns {paths : List Path} (h : paths.Pairwise (·.keys ≤ ·.keys)) :
  (withoutRuns paths).Pairwise (·.keys < ·.keys)
  := by
  fun_induction withoutRuns paths with
  | case1 => exact .nil
  | case2 p => exact List.pairwise_singleton _ p
  | case3 p q rest hequal ih =>
    apply ih
    rw [List.pairwise_cons] at h ⊢
    exact ⟨fun r hr => h.1 r (List.mem_cons_of_mem _ hr), h.2.of_cons⟩
  | case4 p q rest hne ih =>
    rw [List.pairwise_cons] at h ⊢
    refine ⟨fun r hr => ?_, ih h.2⟩
    have hpq : p.keys < q.keys :=
      lt_of_le_of_ne (h.1 q List.mem_cons_self) fun heq => hne (Path.beq_iff_keys.mpr heq)
    apply lt_of_lt_of_le hpq
    rcases List.mem_cons.mp (withoutRuns_subset _ hr) with rfl | hr
    · exact le_rfl
    · exact (List.pairwise_cons.mp h.2).1 r hr

theorem exists_mem_filesFor_own {d : Definition} {own : Path} (h : d.path = some own) (paths : List Path) :
  ∃ q ∈ filesFor d paths, (q == own) = true
  := by
  apply exists_mem_withoutRuns
  apply (List.mergeSort_perm _ _).mem_iff.mpr
  rw [h]
  exact List.mem_append_right _ (List.mem_singleton_self own)

theorem pairwise_filesFor (d : Definition) (paths : List Path) :
  (filesFor d paths).Pairwise (·.keys < ·.keys)
  :=
  pairwise_withoutRuns (Path.pairwise_sort _)

end Survey

/-- Strictly ordered paths, each of which is the same as one of the others and the other way round, are the same
one by one. -/
theorem same_of_ordered {ps qs : List Path} (hps : ps.Pairwise (·.keys < ·.keys))
    (hqs : qs.Pairwise (·.keys < ·.keys)) (hleft : ∀ p ∈ ps, ∃ q ∈ qs, files.Same p q)
    (hright : ∀ q ∈ qs, ∃ p ∈ ps, files.Same p q) :
  List.Forall₂ files.Same ps qs
  := by
  have hkeys {p q : Path} (h : files.Same p q) : p.keys = q.keys := Path.beq_iff_keys.mp h.equal
  induction ps generalizing qs with
  | nil =>
    cases qs with
    | nil => exact .nil
    | cons q qs =>
      obtain ⟨p, hp, _⟩ := hright q List.mem_cons_self
      cases hp
  | cons p ps ih =>
    cases qs with
    | nil =>
      obtain ⟨q, hq, _⟩ := hleft p List.mem_cons_self
      cases hq
    | cons q qs =>
      rw [List.pairwise_cons] at hps hqs
      -- The first path of each list is the least, so the two have to be each other's.
      have hfirst : files.Same p q := by
        obtain ⟨q', hq', hsame⟩ := hleft p List.mem_cons_self
        rcases List.mem_cons.mp hq' with rfl | hq'
        · exact hsame
        · obtain ⟨p', hp', hsame'⟩ := hright q List.mem_cons_self
          have hlt : p'.keys < p.keys := by
            rw [hkeys hsame', hkeys hsame]
            exact hqs.1 q' hq'
          rcases List.mem_cons.mp hp' with rfl | hp'
          · exact absurd hlt (lt_irrefl _)
          · exact absurd (hlt.trans (hps.1 p' hp')) (lt_irrefl _)
      refine .cons hfirst (ih hps.2 hqs.2 (fun p' hp' => ?_) fun q' hq' => ?_)
      · obtain ⟨q', hq', hsame⟩ := hleft p' (List.mem_cons_of_mem _ hp')
        rcases List.mem_cons.mp hq' with rfl | hq'
        · have hlt := hps.1 p' hp'
          rw [hkeys hsame, hkeys hfirst] at hlt
          exact absurd hlt (lt_irrefl _)
        · exact ⟨q', hq', hsame⟩
      · obtain ⟨p', hp', hsame⟩ := hright q' (List.mem_cons_of_mem _ hq')
        rcases List.mem_cons.mp hp' with rfl | hp'
        · have hlt := hqs.1 q' hq'
          rw [← hkeys hsame, hkeys hfirst] at hlt
          exact absurd hlt (lt_irrefl _)
        · exact ⟨p', hp', hsame⟩

/-! ### Widened scopes -/

section Widened

variable {scope : SearchScope} {d : Definition} {ps : List Path}

/-- Widening a scope by files that were searched for a definition adds at most the definition's own file. -/
theorem insertAll_searched (hps : ∀ p ∈ ps, ∃ f ∈ Survey.filesFor d scope.snapshot, files.Same f p) :
  scope.insertAll ps = scope ∨
    ∃ own p, d.path = some own ∧ files.Same own p ∧ scope.contains own = false ∧
      scope.insertAll ps = ⟨p :: scope.files⟩
  := by
  induction ps using List.reverseRecOn with
  | nil => exact .inl rfl
  | append_singleton ps p ih =>
    rw [List.forall_mem_append] at hps
    obtain ⟨f, hf, hsame⟩ := hps.2 p List.mem_cons_self
    have hcontains : f ∈ scope.files → scope.contains p = true := fun hf =>
      SearchScope.contains_iff.mpr ⟨f, hf, hsame.equal⟩
    have hstep : scope.insertAll (ps ++ [p]) = (scope.insertAll ps).insert p := scope.insertAll_append ps [p]
    have hsearched := Survey.mem_filesFor hf
    rw [SearchScope.mem_snapshot] at hsearched
    rw [hstep]
    rcases ih hps.1 with hwidened | ⟨own, q, hown, hq, hnot, hwidened⟩
    · rw [hwidened]
      cases hheld : scope.contains p with
      | true => exact .inl (SearchScope.insert_of_contains hheld)
      | false =>
        rcases hsearched with hfile | hown
        · rw [hcontains hfile] at hheld
          cases hheld
        · refine .inr ⟨f, p, hown, hsame, (SearchScope.contains_congr hsame.equal).trans hheld, ?_⟩
          rw [SearchScope.insert, if_neg (by rw [hheld]; exact Bool.false_ne_true)]
    · right
      refine ⟨own, q, hown, hq, hnot, ?_⟩
      rw [hwidened]
      apply SearchScope.insert_of_contains
      rw [SearchScope.contains_iff]
      rcases hsearched with hfile | hfile
      · exact ⟨f, List.mem_cons_of_mem _ hfile, hsame.equal⟩
      · rw [hown] at hfile
        cases hfile
        exact ⟨q, List.mem_cons_self, BEq.trans (BEq.symm hq.equal) hsame.equal⟩

/-- The files searched for a definition do not change when the scope is widened by some of them. -/
theorem filesFor_widened (hscope : scope.IsDistinct)
    (hps : ∀ p ∈ ps, ∃ f ∈ Survey.filesFor d scope.snapshot, files.Same f p) :
  List.Forall₂ files.Same (Survey.filesFor d scope.snapshot) (Survey.filesFor d (scope.insertAll ps).snapshot)
  := by
  rcases insertAll_searched hps with hwidened | ⟨own, q, hown, hq, hnot, hwidened⟩
  · rw [hwidened]
    exact List.forall₂_same.mpr fun p _ => .refl p
  have hnone {p : Path} (hp : p ∈ scope.files) : ¬ (p == own) = true := by
    rw [← Bool.not_eq_true] at hnot
    exact fun hequal => hnot (SearchScope.contains_iff.mpr ⟨p, hp, hequal⟩)
  have hbefore {p : Path} (hp : p ∈ Survey.filesFor d scope.snapshot) : p ∈ scope.files ∨ p = own := by
    rcases Survey.mem_filesFor hp with hp | hp
    · exact .inl (SearchScope.mem_snapshot.mp hp)
    · rw [hown] at hp
      exact .inr (Option.some.inj hp).symm
  have hafter {p : Path} (hp : p ∈ Survey.filesFor d (scope.insertAll ps).snapshot) :
      p ∈ scope.files ∨ files.Same own p := by
    rcases Survey.mem_filesFor hp with hp | hp
    · rw [SearchScope.mem_snapshot, hwidened] at hp
      rcases List.mem_cons.mp hp with rfl | hp
      · exact .inr hq
      · exact .inl hp
    · rw [hown] at hp
      cases hp
      exact .inr (.refl own)
  apply same_of_ordered (Survey.pairwise_filesFor _ _) (Survey.pairwise_filesFor _ _)
  · intro p hp
    rcases hbefore hp with hfile | rfl
    · have hsearched : p ∈ (scope.insertAll ps).snapshot := by
        rw [SearchScope.mem_snapshot, hwidened]
        exact List.mem_cons_of_mem _ hfile
      obtain ⟨r, hr, hequal⟩ := Survey.exists_mem_filesFor (d := d) hsearched
      rcases hafter hr with hr' | hr'
      · rw [hscope.eq_of_beq hr' hfile hequal] at hr
        exact ⟨p, hr, .refl p⟩
      · exact absurd (BEq.symm (BEq.trans hr'.equal hequal)) (hnone hfile)
    · obtain ⟨r, hr, hequal⟩ := Survey.exists_mem_filesFor_own hown (scope.insertAll ps).snapshot
      rcases hafter hr with hr' | hr'
      · exact absurd hequal (hnone hr')
      · exact ⟨r, hr, hr'⟩
  · intro r hr
    rcases hafter hr with hfile | hsame
    · obtain ⟨p, hp, hequal⟩ := Survey.exists_mem_filesFor (d := d) (SearchScope.mem_snapshot.mpr hfile)
      rcases hbefore hp with hp' | rfl
      · rw [hscope.eq_of_beq hp' hfile hequal] at hp
        exact ⟨r, hp, .refl r⟩
      · exact absurd (BEq.symm hequal) (hnone hfile)
    · obtain ⟨p, hp, hequal⟩ := Survey.exists_mem_filesFor_own hown scope.snapshot
      rcases hbefore hp with hp' | rfl
      · exact absurd hequal (hnone hp')
      · exact ⟨p, hp, hsame⟩

/-- A step that has a result is followed by the next one. -/
theorem ok_bind {α β : Type} {a : ExceptT ProviderError Id α} {u : α} (h : a = .ok u)
    (f : α → ExceptT ProviderError Id β) :
  (a >>= f) = f u
  := by
  rw [h]
  rfl

variable [Parser]

theorem usagesNow_congr {isMember : Bool} {p q : Path} (h : files.Same p q) :
  List.Forall₂ (Usage.Alike files) (usagesNow files searchPath d isMember p)
    (usagesNow files searchPath d isMember q)
  := by
  have hread := outlineNow_congr h searchPath
  unfold usagesNow
  generalize outlineNow files searchPath p = r at hread ⊢
  generalize outlineNow files searchPath q = r' at hread ⊢
  cases hread with
  | ok ho => exact ho.usagesOf (.refl d) isMember
  | error _ => exact .nil

/-- The usages of a definition that are found do not change when the scope is widened by files of theirs. -/
theorem usagesOf_widened (hscope : scope.IsDistinct) {us : List Usage}
    (hus : (fresh files searchPath).usagesOf d scope.snapshot = .ok us)
    (hps : ∀ p ∈ ps, ∃ u ∈ us, ∃ q, u.path = some q ∧ files.Same q p) :
  ∃ us', (fresh files searchPath).usagesOf d (scope.insertAll ps).snapshot = .ok us' ∧
    List.Forall₂ (Usage.Alike files) us us'
  := by
  cases hus.symm.trans (usages_fresh d scope.snapshot)
  refine ⟨_, usages_fresh d _, ?_⟩
  have hsearched : ∀ p ∈ ps, ∃ f ∈ Survey.filesFor d scope.snapshot, files.Same f p := by
    intro p hp
    obtain ⟨u, hu, q, hq, hsame⟩ := hps p hp
    obtain ⟨f, hf, hu⟩ := List.mem_flatMap.mp hu
    obtain ⟨o, ho, hpath⟩ := exists_of_mem_usagesNow hu
    rw [hq] at hpath
    cases hpath
    exact ⟨q, hf, hsame⟩
  exact List.rel_flatMap (filesFor_widened hscope hsearched) fun _ _ h => usagesNow_congr h

/-- The usages that are found do not change when the scope is widened by files of theirs. -/
theorem usages_widened (hscope : scope.IsDistinct) {anchor : Anchor} {us : List Usage}
    (hus : (fresh files searchPath).usages scope.snapshot anchor = .ok us)
    (hps : ∀ p ∈ ps, ∃ u ∈ us, ∃ q, u.path = some q ∧ files.Same q p) :
  ∃ us', (fresh files searchPath).usages (scope.insertAll ps).snapshot anchor = .ok us' ∧
    List.Forall₂ (Usage.Alike files) us us'
  := by
  have hsame : List.Forall₂ (Usage.Alike files) us us := List.forall₂_same.mpr fun u _ => .refl u
  cases anchor with
  | definition d => exact usagesOf_widened hscope hus hps
  | importProbe name =>
    unfold Survey.usages at hus ⊢
    dsimp only at hus ⊢
    obtain ⟨found, hfound, hus⟩ := exists_of_bind hus
    rw [ok_bind hfound]
    cases found with
    | none => exact ⟨us, hus, hsame⟩
    | some d => exact usagesOf_widened hscope hus hps
  | callSite position name =>
    unfold Survey.usages at hus ⊢
    dsimp only at hus ⊢
    cases hpath : position.path with
    | none =>
      rw [hpath] at hus
      exact ⟨us, hus, hsame⟩
    | some path =>
      rw [hpath] at hus
      obtain ⟨o, ho, hus⟩ := exists_of_bind hus
      dsimp only at hus ⊢
      rw [ok_bind ho]
      cases hsite : o.siteAt position.start with
      | none =>
        rw [hsite] at hus
        exact ⟨us, hus, hsame⟩
      | some site =>
        rw [hsite] at hus
        obtain ⟨found, hfound, hus⟩ := exists_of_bind hus
        dsimp only
        rw [ok_bind hfound]
        cases found with
        | nil => exact ⟨us, hus, hsame⟩
        | cons d ds => exact usagesOf_widened hscope hus hps

end Widened

end Source

end CallGraph
