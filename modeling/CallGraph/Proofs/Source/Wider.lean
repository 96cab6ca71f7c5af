import CallGraph.Proofs.Source.Readable
import CallGraph.Proofs.Source.Searched

/-!
# Usages in more files

Where usages are searched in more files, those found before are found again and in the same order: they are the
usages found that stand in some of the files.  Of equal spellings of a path only the first one given is read, so a
file is lost if it is also given under a spelling that it cannot be read under; a list of files `Widens` another
one if there is no such spelling in it.
-/

namespace CallGraph.Source

variable {files : FileTree} {searchPath : List Path}

namespace Survey

/-- Of each run of equal paths the first one is left. -/
theorem filter_withoutRuns {paths : List Path} (h : paths.Pairwise (·.keys ≤ ·.keys)) (p : Path) :
  (withoutRuns paths).filter (· == p) = (paths.filter (· == p)).take 1
  := by
  fun_induction withoutRuns paths with
  | case1 => rfl
  | case2 q => cases hq : q == p <;> simp [hq]
  | case3 first second rest hequal ih =>
    have hshorter : (first :: rest).Pairwise (·.keys ≤ ·.keys) := by
      rw [List.pairwise_cons] at h ⊢
      exact ⟨fun r hr => h.1 r (List.mem_cons_of_mem _ hr), h.2.of_cons⟩
    rw [ih hshorter]
    cases hfirst : first == p with
    | true => simp [hfirst]
    | false =>
      have hsecond : (second == p) = false := (BEq.congr_left hequal).symm.trans hfirst
      simp [hfirst, hsecond]
  | case4 first second rest hne ih =>
    rw [List.pairwise_cons] at h
    cases hfirst : first == p with
    | false =>
      rw [List.filter_cons_of_neg (by simp [hfirst]), List.filter_cons_of_neg (by simp [hfirst]), ih h.2]
    | true =>
      -- All later paths come behind the first one, so none of them equals `p`.
      have hbehind : (second :: rest).filter (· == p) = [] := by
        rw [List.filter_eq_nil_iff]
        intro r hr hequal
        have hrfirst : r.keys = first.keys :=
          (Path.beq_iff_keys.mp hequal).trans (Path.beq_iff_keys.mp hfirst).symm
        have hsecond : first.keys < second.keys :=
          lt_of_le_of_ne (h.1 second List.mem_cons_self) fun heq => hne (Path.beq_iff_keys.mpr heq)
        rcases List.mem_cons.mp hr with rfl | hr
        · exact absurd hrfirst hsecond.ne'
        · exact absurd hrfirst (hsecond.trans_le ((List.pairwise_cons.mp h.2).1 r hr)).ne'
      simp [hfirst, ih h.2, hbehind]

/-- A file that is given is searched under a spelling that is given. -/
theorem mem_of_mem_filesFor {d : Definition} {paths : List Path} {p q : Path} (hq : q ∈ filesFor d paths)
    (hp : p ∈ paths) (hequal : (p == q) = true) :
  q ∈ paths
  := by
  have hfirst : (filesFor d paths).filter (· == q) = ((paths ++ d.path.toList).filter (· == q)).take 1 := by
    rw [filesFor, filter_withoutRuns (Path.pairwise_sort _), Path.filter_sort]
  have hmem : q ∈ (filesFor d paths).filter (· == q) := List.mem_filter.mpr ⟨hq, beq_self_eq_true q⟩
  rw [hfirst, List.filter_append] at hmem
  cases hgiven : paths.filter (· == q) with
  | nil =>
    rw [List.filter_eq_nil_iff] at hgiven
    exact absurd hequal (hgiven p hp)
  | cons r rs =>
    rw [hgiven, List.cons_append, List.take_succ_cons, List.take_zero, List.mem_singleton] at hmem
    have hr : r ∈ paths.filter (· == q) := hgiven ▸ List.mem_cons_self
    exact hmem ▸ (List.mem_filter.mp hr).1

variable {m : Type → Type} [Monad m]

/-- The definition whose usages are searched for an anchor, if any. -/
def target (s : Survey m) : Anchor → ExceptT ProviderError m (Option Definition)
  | .definition d => pure (some d)
  | .callSite position _ =>
    match position.path with
    | none => pure none
    | some path => do
      let o ← s.outline path
      match o.siteAt position.start with
      | some site => do
        let found ← s.targets (callSiteOf o.path site)
        pure found.head?
      | none => pure none
  | .importProbe name => s.resolve name

end Survey

/-! ### Usages among others -/

/-- Whether a usage stands in one of some files. -/
def standsIn (kept : Path → Bool) (u : Usage) : Bool :=
  u.path.all kept

/-- Usages that are, but for spelling, those of others that stand in some of the files. -/
def Among (files : FileTree) (us us' : List Usage) : Prop :=
  ∃ kept : Path → Bool, (∀ p q, (p == q) = true → kept p = kept q) ∧
    List.Forall₂ (Usage.Alike files) us (us'.filter (standsIn kept))

theorem Among.refl (us : List Usage) :
  Among files us us
  := by
  refine ⟨fun _ => true, fun _ _ _ => rfl, ?_⟩
  have hall : us.filter (standsIn fun _ => true) = us :=
    List.filter_eq_self.mpr fun u _ => by cases hpath : u.path <;> rw [standsIn, hpath] <;> rfl
  rw [hall]
  exact List.forall₂_same.mpr fun u _ => .refl u

theorem standsIn_congr {kept : Path → Bool} (hkept : ∀ p q, (p == q) = true → kept p = kept q) {u v : Usage}
    (h : u.Alike files v) :
  standsIn kept u = standsIn kept v
  := by
  have hpath := h.path
  unfold standsIn
  generalize u.path = x at hpath ⊢
  generalize v.path = y at hpath ⊢
  cases hpath with
  | none => rfl
  | some hsame => exact hkept _ _ hsame.equal

/-- Usages alike are among others alike. -/
theorem Among.congr {us us' vs vs' : List Usage} (h : Among files us us')
    (hleft : List.Forall₂ (Usage.Alike files) vs us) (hright : List.Forall₂ (Usage.Alike files) vs' us') :
  Among files vs vs'
  := by
  obtain ⟨kept, hkept, halike⟩ := h
  have hfilter : List.Forall₂ (Usage.Alike files) (vs'.filter (standsIn kept)) (us'.filter (standsIn kept)) := by
    apply List.rel_filter _ hright
    intro u v huv
    dsimp only
    rw [standsIn_congr hkept huv]
  have hjoined := forall₂_join hleft halike.flip fun _ _ _ h h' => h.trans h'
  exact ⟨kept, hkept, forall₂_join hjoined hfilter fun _ _ _ h h' => h.trans h'.symm⟩

/-- What is like part of a list is like part of a list alike. -/
theorem sublistForall₂_of_join {α : Type} {P R : α → α → Prop} {as bs cs ds : List α} (hleft : List.Forall₂ P as bs)
    (hsublist : bs.Sublist cs) (hright : List.Forall₂ P ds cs) (hR : ∀ a b c, P a c → P b c → R a b) :
  List.SublistForall₂ R as ds
  := by
  induction hsublist generalizing as ds with
  | slnil =>
    cases hleft
    exact .nil
  | cons c _ ih =>
    cases hright with
    | cons _ hright => exact .cons_right (ih hleft hright)
  | cons_cons c _ ih =>
    cases hleft with
    | cons ha hleft =>
      cases hright with
      | cons hd hright => exact .cons (hR _ _ _ ha hd) (ih hleft hright)

/-- Usages that are among others are equal to some of them, in their order. -/
theorem Among.sublistForall₂ {us us' : List Usage} (h : Among files us us') :
  List.SublistForall₂ (fun u v : Usage => (u == v) = true) us us'
  := by
  obtain ⟨kept, _, halike⟩ := h
  have hsame : List.Forall₂ (Usage.Alike files) us' us' := List.forall₂_same.mpr fun u _ => .refl u
  apply sublistForall₂_of_join halike List.filter_sublist hsame
  intro u v w hu hv
  have huv := hu.trans hv.symm
  rw [Usage.beq_iff, huv.rest]
  exact ⟨optionRel_beq huv.path, rfl, rfl, rfl, rfl⟩

/-- Leaving out files in which nothing is found does not change what is found. -/
theorem flatMap_filter {α β : Type} {kept : α → Bool} {f : α → List β} {as : List α}
    (h : ∀ a ∈ as, kept a = false → f a = []) :
  (as.filter kept).flatMap f = as.flatMap f
  := by
  induction as with
  | nil => rfl
  | cons a as ih =>
    have htail := ih fun b hb => h b (List.mem_cons_of_mem a hb)
    cases ha : kept a with
    | true => rw [List.filter_cons_of_pos ha, List.flatMap_cons, List.flatMap_cons, htail]
    | false =>
      rw [List.filter_cons_of_neg (by simp [ha]), List.flatMap_cons, h a List.mem_cons_self ha, htail]
      rfl

/-! ### More files -/

variable [Parser]

/-- The usages of an anchor are those of its target, or no files are searched for them. -/
theorem usages_of_target_or (files : FileTree) (searchPath : List Path) (anchor : Anchor) :
  (∃ d, (fresh files searchPath).target anchor = .ok (some d) ∧
    ∀ paths, (fresh files searchPath).usages paths anchor = (fresh files searchPath).usagesOf d paths) ∨
  ∀ paths paths', (fresh files searchPath).usages paths anchor = (fresh files searchPath).usages paths' anchor
  := by
  cases anchor with
  | definition d => exact .inl ⟨d, rfl, fun _ => rfl⟩
  | importProbe name =>
    unfold Survey.target Survey.usages
    dsimp only
    cases hfound : (fresh files searchPath).resolve name with
    | error e => exact .inr fun _ _ => rfl
    | ok found =>
      cases found with
      | none => exact .inr fun _ _ => rfl
      | some d => exact .inl ⟨d, rfl, fun _ => rfl⟩
  | callSite position name =>
    unfold Survey.target Survey.usages
    dsimp only
    cases position.path with
    | none => exact .inr fun _ _ => rfl
    | some path =>
      dsimp only
      cases hread : outlineNow files searchPath path with
      | error e =>
        right
        intro paths paths'
        rw [outline_bind_error hread, outline_bind_error hread]
      | ok o =>
        simp only [outline_bind hread]
        cases o.siteAt position.start with
        | none => exact .inr fun _ _ => rfl
        | some site =>
          dsimp only
          cases hfound : (fresh files searchPath).targets (Survey.callSiteOf o.path site) with
          | error e => exact .inr fun _ _ => rfl
          | ok found =>
            simp only [ok_bind rfl]
            cases found with
            | nil => exact .inr fun _ _ => rfl
            | cons d ds => exact .inl ⟨d, rfl, fun _ => rfl⟩

/-- Files that include others, up to spelling, and are given under spellings that they can be read under, at least
where they are among those others or have what is searched for in them. -/
structure Widens (files : FileTree) (searchPath : List Path) (anchor : Anchor) (narrow wide : List Path) : Prop where
  subset : ∀ p ∈ narrow, ∃ q ∈ wide, (q == p) = true
  readable : ∀ p q, (p ∈ narrow ∨ ∃ d, (fresh files searchPath).target anchor = .ok (some d) ∧ d.path = some p) →
    q ∈ wide → (q == p) = true → Readable files p → Readable files q

section Usages

variable {d : Definition} {isMember : Bool}

/-- The usages in files that stand in some of them are the usages in those. -/
theorem filter_flatMap_usagesNow (kept : Path → Bool) (paths : List Path) :
  (paths.flatMap (usagesNow files searchPath d isMember)).filter (standsIn kept) =
    (paths.filter kept).flatMap (usagesNow files searchPath d isMember)
  := by
  have hpath {p : Path} {u : Usage} (hu : u ∈ usagesNow files searchPath d isMember p) :
      standsIn kept u = kept p := by
    obtain ⟨o, _, hpath⟩ := exists_of_mem_usagesNow hu
    rw [standsIn, hpath]
    rfl
  induction paths with
  | nil => rfl
  | cons p paths ih =>
    rw [List.flatMap_cons, List.filter_append, ih]
    cases hp : kept p with
    | true =>
      have hall : (usagesNow files searchPath d isMember p).filter (standsIn kept) =
          usagesNow files searchPath d isMember p :=
        List.filter_eq_self.mpr fun u hu => (hpath hu).trans hp
      rw [List.filter_cons_of_pos hp, List.flatMap_cons, hall]
    | false =>
      have hnone : (usagesNow files searchPath d isMember p).filter (standsIn kept) = [] :=
        List.filter_eq_nil_iff.mpr fun u hu => by simp [hpath hu, hp]
      rw [List.filter_cons_of_neg (by simp [hp]), hnone, List.nil_append]

end Usages

namespace Widens

variable {anchor : Anchor} {narrow wide : List Path} {d : Definition}
  (h : Widens files searchPath anchor narrow wide) (hd : (fresh files searchPath).target anchor = .ok (some d))

include h

/-- A file that was searched is searched again. -/
theorem exists_mem_filesFor {p : Path} (hp : p ∈ Survey.filesFor d narrow) :
  ∃ q ∈ Survey.filesFor d wide, (q == p) = true
  := by
  rcases Survey.mem_filesFor hp with hp | hp
  · obtain ⟨r, hr, hequal⟩ := h.subset p hp
    obtain ⟨q, hq, hequal'⟩ := Survey.exists_mem_filesFor (d := d) hr
    exact ⟨q, hq, BEq.trans hequal' hequal⟩
  · exact Survey.exists_mem_filesFor_own hp wide

include hd in
/-- A file that was read is read again. -/
theorem readable_of_mem_filesFor {p q : Path} (hp : p ∈ Survey.filesFor d narrow)
    (hq : q ∈ Survey.filesFor d wide) (hequal : (q == p) = true) (hread : Readable files p) :
  Readable files q
  := by
  have hwide (hq : q ∈ wide) : Readable files q := by
    apply h.readable p q _ hq hequal hread
    exact (Survey.mem_filesFor hp).imp_right fun hown => ⟨d, hd, hown⟩
  rcases Survey.mem_filesFor hq with hq' | hown
  · exact hwide hq'
  · rcases Survey.mem_filesFor hp with hp | hp
    · obtain ⟨r, hr, hequal'⟩ := h.subset p hp
      exact hwide (Survey.mem_of_mem_filesFor hq hr (BEq.trans hequal' (BEq.symm hequal)))
    · rw [hown] at hp
      cases hp
      exact hread

include hd in
/-- The usages of a definition in some files are among those in more files. -/
theorem among_usagesOf {us us' : List Usage} (hus : (fresh files searchPath).usagesOf d narrow = .ok us)
    (hus' : (fresh files searchPath).usagesOf d wide = .ok us') :
  Among files us us'
  := by
  cases hus.symm.trans (usages_fresh d narrow)
  cases hus'.symm.trans (usages_fresh d wide)
  let reads (p : Path) : Bool := (outlineNow files searchPath p).isOk
  have hreads {p : Path} (hp : reads p = true) : ∃ o, outlineNow files searchPath p = .ok o := by
    change (outlineNow files searchPath p).isOk = true at hp
    cases hread : outlineNow files searchPath p with
    | ok o => exact ⟨o, rfl⟩
    | error e =>
      rw [hread] at hp
      cases hp
  have hnothing : ∀ p ∈ Survey.filesFor d narrow, reads p = false →
      usagesNow files searchPath d (memberNow files searchPath d) p = [] := by
    intro p _ hp
    change (outlineNow files searchPath p).isOk = false at hp
    rw [usagesNow]
    cases hread : outlineNow files searchPath p with
    | error e => rfl
    | ok o =>
      rw [hread] at hp
      cases hp
  refine ⟨fun q => (Survey.filesFor d narrow).any fun p => reads p && p == q, ?_, ?_⟩
  · intro q q' hequal
    simp only [BEq.congr_right hequal]
  rw [← flatMap_filter hnothing, filter_flatMap_usagesNow]
  apply List.rel_flatMap _ fun _ _ hsame => usagesNow_congr hsame
  have hsame {p q : Path} (hp : p ∈ Survey.filesFor d narrow) (hread : reads p = true)
      (hq : q ∈ Survey.filesFor d wide) (hequal : (q == p) = true) : files.Same p q := by
    obtain ⟨o, ho⟩ := hreads hread
    obtain ⟨o', ho'⟩ :=
      (h.readable_of_mem_filesFor hd hp hq hequal (readable_of_outlineNow ho)).outlineNow searchPath
    exact same_of_readable (BEq.symm hequal) ho ho'
  apply same_of_ordered ((Survey.pairwise_filesFor d narrow).filter _) ((Survey.pairwise_filesFor d wide).filter _)
  · intro p hp
    obtain ⟨hp, hread⟩ := List.mem_filter.mp hp
    obtain ⟨q, hq, hequal⟩ := h.exists_mem_filesFor hp
    refine ⟨q, List.mem_filter.mpr ⟨hq, ?_⟩, hsame hp hread hq hequal⟩
    rw [List.any_eq_true]
    exact ⟨p, hp, by rw [hread, BEq.symm hequal]; rfl⟩
  · intro q hq
    obtain ⟨hq, hkept⟩ := List.mem_filter.mp hq
    obtain ⟨p, hp, hfound⟩ := List.any_eq_true.mp hkept
    rw [Bool.and_eq_true] at hfound
    exact ⟨p, List.mem_filter.mpr ⟨hp, hfound.1⟩, hsame hp hfound.1 hq (BEq.symm hfound.2)⟩

/-- The usages of an anchor in some files are among those in more files. -/
theorem outcome_usages :
  Outcome files (Among files) ((fresh files searchPath).usages narrow anchor)
    ((fresh files searchPath).usages wide anchor)
  := by
  rcases usages_of_target_or files searchPath anchor with ⟨d, hd, husages⟩ | husages
  · have hus : (fresh files searchPath).usagesOf d narrow = .ok _ := usages_fresh d narrow
    have hus' : (fresh files searchPath).usagesOf d wide = .ok _ := usages_fresh d wide
    have hamong := h.among_usagesOf hd hus hus'
    rw [husages, husages, hus, hus']
    exact .ok hamong
  · rw [husages narrow wide]
    cases (fresh files searchPath).usages wide anchor with
    | ok us => exact .ok (.refl us)
    | error e => exact .error (.refl e)

end Widens

end CallGraph.Source
