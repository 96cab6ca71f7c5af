import CallGraph.Proofs.Path
import CallGraph.Proofs.Search.Transcript
import CallGraph.Provider.Scripted
import Mathlib.Data.List.Pairwise

/-!
# What call sites give

The vertices inside a scope are those of its call sites, one group after the other.  The group of a site is made of
what was answered about this site alone: its targets, of which the first occurrence of each counts, or one placeholder.
-/

namespace CallGraph

variable {σ : Type} {token : Token}

/-! ### First occurrences -/

section Firsts

variable {α : Type} {same : α → α → Bool} {earlier l : List α}

/-- The elements of a list that are the same as none before them, each with its place.  What is `earlier` comes before
the whole list. -/
def firsts (same : α → α → Bool) (earlier l : List α) : List (α × Nat) :=
  (l.zipIdx earlier.length).filter fun x => !((earlier ++ l).take x.2).any (same · x.1)

/-- The first element is kept unless there is an earlier one. -/
theorem firsts_cons (same : α → α → Bool) (earlier l : List α) (a : α) :
  firsts same earlier (a :: l) =
    if earlier.any (same · a) then firsts same (earlier ++ [a]) l
    else (a, earlier.length) :: firsts same (earlier ++ [a]) l
  := by
  have hrest : (l.zipIdx (earlier.length + 1)).filter
      (fun x => !((earlier ++ a :: l).take x.2).any (same · x.1)) = firsts same (earlier ++ [a]) l := by
    rw [firsts, List.length_append, List.append_assoc]
    rfl
  have htake : (earlier ++ a :: l).take earlier.length = earlier := List.take_left
  rw [firsts, List.zipIdx_cons, List.filter_cons, hrest, htake]
  cases earlier.any (same · a) <;> rfl

/-- What is kept comes after all that is earlier, and is the same as nothing of it. -/
theorem of_mem_firsts {x : α × Nat} (h : x ∈ firsts same earlier l) :
  x.1 ∈ l ∧ earlier.length ≤ x.2 ∧ ∀ b ∈ earlier, same b x.1 = false
  := by
  induction l generalizing earlier with
  | nil => cases h
  | cons a l ih =>
    rw [firsts_cons] at h
    have htail (hx : x ∈ firsts same (earlier ++ [a]) l) :
        x.1 ∈ a :: l ∧ earlier.length ≤ x.2 ∧ ∀ b ∈ earlier, same b x.1 = false := by
      obtain ⟨hmem, hplace, hother⟩ := ih hx
      rw [List.length_append] at hplace
      exact ⟨List.mem_cons_of_mem a hmem, Nat.le_of_add_right_le hplace,
        fun b hb => hother b (List.mem_append_left [a] hb)⟩
    split at h
    case isTrue => exact htail h
    case isFalse hnew =>
      rcases List.mem_cons.mp h with rfl | h
      · rw [Bool.not_eq_true, List.any_eq_false] at hnew
        exact ⟨List.mem_cons_self, Nat.le_refl _, fun b hb => Bool.not_eq_true _ ▸ hnew b hb⟩
      · exact htail h

/-- What is kept is in order, and no two are the same. -/
theorem pairwise_firsts (same : α → α → Bool) (earlier l : List α) :
  (firsts same earlier l).Pairwise fun x y => x.2 < y.2 ∧ same x.1 y.1 = false
  := by
  induction l generalizing earlier with
  | nil => exact .nil
  | cons a l ih =>
    rw [firsts_cons]
    split
    case isTrue => exact ih _
    case isFalse =>
      refine List.pairwise_cons.mpr ⟨fun y hy => ?_, ih _⟩
      obtain ⟨_, hplace, hother⟩ := of_mem_firsts hy
      rw [List.length_append] at hplace
      exact ⟨hplace, hother a (List.mem_append_right earlier List.mem_cons_self)⟩

end Firsts

/-! ### Numbers behind names -/

/-- The number behind a name can be read off. -/
theorem eq_of_numbered_eq {name other : String} {i j : Nat} (h : s!"{name} ({i})" = s!"{other} ({j})") :
  i = j
  := by
  have hlast (name : String) (i : Nat) :
      (s!"{name} ({i})".toList.reverse.tail.takeWhile Char.isDigit).reverse = Nat.toDigits 10 i := by
    have hlist : s!"{name} ({i})".toList = name.toList ++ [' ', '('] ++ Nat.toDigits 10 i ++ [')'] := by
      change (name ++ " (" ++ Nat.repr i ++ ")").toList = _
      rw [String.toList_append, String.toList_append, String.toList_append, Nat.toList_repr]
      rfl
    have hdigits : ∀ c ∈ (Nat.toDigits 10 i).reverse, c.isDigit = true := fun c hc =>
      Nat.isDigit_of_mem_toDigits (by decide) (Nat.le_refl _) (List.mem_reverse.mp hc)
    rw [hlist, List.reverse_append, List.reverse_append, List.reverse_append]
    change (((Nat.toDigits 10 i).reverse ++ '(' :: ' ' :: name.toList.reverse).takeWhile Char.isDigit).reverse = _
    rw [List.takeWhile_append_of_pos hdigits, List.takeWhile_cons_of_neg (by decide), List.append_nil,
      List.reverse_reverse]
  have hdigits : Nat.toDigits 10 i = Nat.toDigits 10 j := by
    rw [← hlast name i, ← hlast other j, h]
  have hread := congrArg (Nat.ofDigitChars 10 · 0) hdigits
  simpa using hread

/-- A name that has a number behind it. -/
def IsNumbered (name : String) : Prop :=
  ∃ (base : String) (k : Nat), name = s!"{base} ({k})"

/-! ### Groups -/

namespace Definition

/-- Whether two definitions have the same name and stand at the same place. -/
def sameTarget (d d' : Definition) : Bool :=
  d.name == d'.name && d.position == d'.position

theorem sameTarget_comm (d d' : Definition) :
  d.sameTarget d' = d'.sameTarget d
  := by
  rw [sameTarget, sameTarget, BEq.comm (a := d.name), BEq.comm (a := d.position)]

/-- Definitions that are the same are so to any other one. -/
theorem sameTarget_congr {d d' : Definition} (h : d.sameTarget d' = true) (e : Definition) :
  e.sameTarget d = e.sameTarget d'
  := by
  rw [sameTarget, Bool.and_eq_true] at h
  rw [sameTarget, sameTarget, BEq.congr_right h.1, BEq.congr_right h.2]

end Definition

/-- Whether a vertex is worth showing. -/
def Vertex.isShown (v : Vertex) : Bool :=
  !Builtins.isIgnored v.element.module v.element.name

/-- A call site and what was answered about its targets. -/
abbrev SiteReply : Type :=
  CallSite × Except ProviderError (List Definition)

namespace SiteReply

/-- The targets that were found, if any. -/
def targets (r : SiteReply) : List Definition :=
  r.2.toOption.getD []

/-- What was answered. -/
def answered (r : SiteReply) : Answered :=
  ⟨.targets r.1, r.2⟩

/-- The vertices of a call site: a placeholder if there is no target, else the targets that are worth showing, each
once and under its place among all targets. -/
def group (r : SiteReply) : List Vertex :=
  if r.targets.isEmpty then [placeholder r.1]
  else ((firsts Definition.sameTarget [] r.targets).map fun x => targetVertex r.1 x.2 x.1).filter Vertex.isShown

theorem answered_injective :
  Function.Injective answered
  := by
  rintro ⟨site, result⟩ ⟨site', result'⟩ h
  cases h
  rfl

end SiteReply

/-- Targets that were seen before are left out, and those not worth showing. -/
theorem targetVertices_eq (site : CallSite) {earlier : List Definition} {seen : List (String × CallPosition)}
    (hseen : ∀ d, seen.contains (d.name, d.position) = earlier.any (Definition.sameTarget · d))
    (targets : List Definition) :
  targetVertices site earlier.length seen targets =
    ((firsts Definition.sameTarget earlier targets).map fun x => targetVertex site x.2 x.1).filter Vertex.isShown
  := by
  induction targets generalizing earlier seen with
  | nil => rfl
  | cons target targets ih =>
    have hnext (seen' : List (String × CallPosition))
        (hseen' : ∀ d, seen'.contains (d.name, d.position) =
          (earlier.any (Definition.sameTarget · d) || target.sameTarget d)) :
        targetVertices site (earlier.length + 1) seen' targets =
          ((firsts Definition.sameTarget (earlier ++ [target]) targets).map fun x =>
            targetVertex site x.2 x.1).filter Vertex.isShown := by
      have happended (d : Definition) : seen'.contains (d.name, d.position) =
          (earlier ++ [target]).any (Definition.sameTarget · d) := by
        rw [hseen' d, List.any_append, List.any_cons, List.any_nil, Bool.or_false]
      rw [← ih happended, List.length_append]
      rfl
    rw [targetVertices, firsts_cons, ← hseen target]
    split
    case isTrue hrepeated =>
      apply hnext seen
      intro d
      rw [hseen d]
      cases hd : target.sameTarget d with
      | false => exact (Bool.or_false _).symm
      | true =>
        rw [Bool.or_true, ← hrepeated, hseen target]
        simp only [Definition.sameTarget_congr hd]
    case isFalse =>
      have hrest := hnext ((target.name, target.position) :: seen) fun d => by
        rw [List.contains_cons, hseen d, Bool.or_comm, target.sameTarget_comm]
        rfl
      dsimp only
      rw [hrest, List.map_cons, List.filter_cons, Vertex.isShown]
      cases Builtins.isIgnored (targetVertex site earlier.length target).element.module
        (targetVertex site earlier.length target).element.name <;> rfl

theorem siteVertices_eq (r : SiteReply) :
  siteVertices r.1 r.targets = r.group
  := by
  have hnone (d : Definition) : ([] : List (String × CallPosition)).contains (d.name, d.position) =
      ([] : List Definition).any (Definition.sameTarget · d) := rfl
  rw [siteVertices, SiteReply.group, ← targetVertices_eq r.1 hnone]
  rfl

namespace SiteReply

variable {r : SiteReply} {v : Vertex}

/-- A vertex of a call site is the placeholder, or shows one of the targets and is worth it. -/
theorem of_mem_group (h : v ∈ r.group) :
  v = placeholder r.1 ∨
    ∃ x ∈ firsts Definition.sameTarget [] r.targets, v = targetVertex r.1 x.2 x.1 ∧ v.isShown = true
  := by
  rw [group] at h
  split at h
  · exact .inl (List.mem_singleton.mp h)
  · obtain ⟨hmem, hshown⟩ := List.mem_filter.mp h
    obtain ⟨x, hx, rfl⟩ := List.mem_map.mp hmem
    exact .inr ⟨x, hx, rfl, hshown⟩

/-- Where there are targets every vertex shows one of them. -/
theorem exists_target_of_mem_group (htargets : r.targets ≠ []) (h : v ∈ r.group) :
  ∃ d ∈ r.targets, v.definition = some d
  := by
  rw [group, if_neg (by rwa [List.isEmpty_iff])] at h
  obtain ⟨x, hx, rfl⟩ := List.mem_map.mp (List.mem_filter.mp h).1
  exact ⟨x.1, (of_mem_firsts hx).1, rfl⟩

/-- A vertex of a call site has its stretch and its role. -/
theorem element_of_mem_group (h : v ∈ r.group) :
  v.element.callPosition = r.1.position ∧ v.element.role = r.1.role
  := by
  rcases of_mem_group h with rfl | ⟨x, _, rfl, _⟩
  · exact ⟨rfl, rfl⟩
  · exact ⟨rfl, rfl⟩

/-- Targets at different places among all are shown under different names, unless the name of one has a number behind
it anyway. -/
theorem targetVertex_name_ne (site : CallSite) {i j : Nat} (hij : i < j) {d e : Definition}
    (hname : ¬ IsNumbered d.name) :
  (targetVertex site i d).element.name ≠ (targetVertex site j e).element.name
  := by
  have hsecond : (targetVertex site j e).element.name = s!"{e.name} ({j + 1})" := if_neg (Nat.ne_zero_of_lt hij)
  rw [hsecond]
  intro h
  cases i with
  | zero => exact hname ⟨_, _, h⟩
  | succ i => exact Nat.ne_of_lt hij (Nat.succ.inj (eq_of_numbered_eq h))

/-- The vertices of a call site show different elements. -/
theorem pairwise_group (hnames : ∀ d ∈ r.targets, ¬ IsNumbered d.name) :
  r.group.Pairwise fun v v' => (v.element == v'.element) = false
  := by
  rw [group]
  split
  · exact List.pairwise_singleton _ _
  · apply List.Pairwise.filter
    rw [List.pairwise_map]
    apply (pairwise_firsts Definition.sameTarget [] r.targets).imp_of_mem
    intro x y hx _ hplaces
    rw [← Bool.not_eq_true]
    intro hequal
    exact targetVertex_name_ne r.1 hplaces.1 (hnames x.1 (of_mem_firsts hx).1) (Element.beq_iff.mp hequal).2.2.1

end SiteReply

/-! ### Searches -/

namespace Finding

/-- Every site is asked for its targets, and gives its group. -/
theorem finds_sitesVertices (sites : List CallSite) :
  (sitesVertices token sites).Finds fun vs t =>
    ∃ replies : List SiteReply, replies.map Prod.fst = sites ∧ t = ⟨replies.map SiteReply.answered, []⟩ ∧
      vs = replies.flatMap SiteReply.group
  := by
  induction sites with
  | nil => exact finds_pure [] ⟨[], rfl, rfl, rfl⟩
  | cons site sites ih =>
    apply (finds_checkpoint token).quiet_bind
    intro _
    apply (finds_askContained _ _ _ _).bind
    rintro _ _ ⟨result, rfl, rfl⟩
    apply ih.bind
    rintro _ _ ⟨replies, rfl, rfl, rfl⟩
    refine finds_pure _ ⟨(site, result) :: replies, rfl, ?_, ?_⟩
    · rw [Transcript.append_empty]
      rfl
    · rw [List.flatMap_cons, ← siteVertices_eq]
      rfl

/-- A scope is asked for its call sites first. -/
theorem yields_callSiteVertices (scope : Definition) (token : Token) :
  (callSiteVertices scope token).run.Yields .uncancelled fun result t =>
    (∃ e, t.answers = [⟨.callSites scope, .error e⟩] ∧ result = .error e) ∨
      ∃ replies : List SiteReply,
        t.answers = ⟨.callSites scope, .ok (replies.map Prod.fst)⟩ :: replies.map SiteReply.answered ∧
          result = .ok (replies.flatMap SiteReply.group)
  := by
  apply (Search.yields_ask (.callSites scope) (some token)).bind
  rintro (e | sites) _ ⟨rfl, _⟩
  · exact Search.yields_pure _ (.inl ⟨e, rfl, rfl⟩)
  · apply Search.Yields.imp (finds_sitesVertices sites)
    rintro _ _ ⟨vs, rfl, replies, rfl, rfl, rfl⟩
    exact .inr ⟨replies, rfl, rfl⟩

/-- Inside a scope that has call sites stand the groups of all of them, in order.  Where nothing is known of the
targets of a site there is one vertex, which shows nothing but the site; a vertex always stands where its site does.
Vertices of one site look different.  A failure at one site changes its own group only. -/
theorem callSiteVertices_groups (w : Workspace σ) (scope : Definition) (token : Token)
    (huncancelled : w.grants .uncancelled (callSiteVertices scope token).run = true) :
  (∃ e, (w.transcript (callSiteVertices scope token).run).answers = [⟨.callSites scope, .error e⟩] ∧
    (w.run (callSiteVertices scope token).run).1 = .error e) ∨
  ∃ replies : List SiteReply,
    (w.transcript (callSiteVertices scope token).run).answers =
      ⟨.callSites scope, .ok (replies.map Prod.fst)⟩ :: replies.map SiteReply.answered ∧
    (w.run (callSiteVertices scope token).run).1 = .ok (replies.map SiteReply.group).flatten ∧
    (∀ r ∈ replies,
      (r.targets = [] → ∃ v, r.group = [v] ∧ v.definition = none ∧ v.element.kind = Kind.unknownKind) ∧
      (r.targets ≠ [] → ∀ v ∈ r.group, ∃ d ∈ r.targets, v.definition = some d) ∧
      (∀ v ∈ r.group, v.element.callPosition = r.1.position ∧ v.element.role = r.1.role) ∧
      ((∀ d ∈ r.targets, ¬ IsNumbered d.name) →
        r.group.Pairwise fun v v' => (v.element == v'.element) = false)) ∧
    ∀ {τ : Type} (w' : Workspace τ) (i : Nat) (site : CallSite) (e : ProviderError),
      w'.grants .uncancelled (callSiteVertices scope token).run = true →
      (w'.transcript (callSiteVertices scope token).run).answers =
        ⟨.callSites scope, .ok (replies.map Prod.fst)⟩ ::
          (replies.set i (site, .error e)).map SiteReply.answered →
      (w'.run (callSiteVertices scope token).run).1 =
        .ok ((replies.map SiteReply.group).set i [placeholder site]).flatten
  := by
  rcases (yields_callSiteVertices scope token).run huncancelled with hrefused | ⟨replies, hanswers, hresult⟩
  · exact .inl hrefused
  refine .inr ⟨replies, hanswers, hresult, fun r _ => ⟨?_, ?_, ?_, ?_⟩, ?_⟩
  · intro htargets
    refine ⟨placeholder r.1, ?_, rfl, rfl⟩
    rw [SiteReply.group, htargets]
    rfl
  · intro htargets v hv
    obtain ⟨d, hd, hshows⟩ := SiteReply.exists_target_of_mem_group htargets hv
    exact ⟨d, hd, hshows⟩
  · exact fun v hv => SiteReply.element_of_mem_group hv
  · exact SiteReply.pairwise_group
  · intro τ w' i site e huncancelled' hanswers'
    -- What was answered determines what the search comes to.
    have hyields := (yields_callSiteVertices scope token).run huncancelled'
    rw [hanswers'] at hyields
    rcases hyields with ⟨_, hrefused, _⟩ | ⟨replies', hreplied, hresult'⟩
    · cases hrefused
    · have hreplies := SiteReply.answered_injective.list_map (List.cons.inj hreplied).2
      rw [hresult', ← hreplies, List.flatMap_def, List.map_set]
      rfl

/-- A function that calls something that is defined twice and found three times, something that cannot be found,
something that is not worth showing and something that nothing is known of. -/
def dispatch : Workspace Scripted where
  provider := Scripted.provider
  analysis :=
    { callSites := ["run", "stop", "print", "odd"].map fun name => ("f", .plain name ⟨"m.py"⟩ 2 4)
      targets := [
        ("run", [.function "run" "a" ⟨"a.py"⟩ 1, .function "run" "a" ⟨"a.py"⟩ 1, .function "run" "b" ⟨"b.py"⟩ 1]),
        ("print", [.function "print" "builtins" ⟨"builtins.py"⟩ 1])]
      failing := ["goto:stop"] }
  files := {}
  config := {}

/-- Both definitions are shown, the second one as the third target, and two placeholders. -/
theorem callSiteVertices_groups_dispatch :
  dispatch.grants .uncancelled (callSiteVertices (.function "f" "m" ⟨"m.py"⟩ 1) (.root 0)).run = true ∧
  ∃ replies : List SiteReply,
    (dispatch.run (callSiteVertices (.function "f" "m" ⟨"m.py"⟩ 1) (.root 0)).run).1 =
      .ok (replies.map SiteReply.group).flatten ∧
    (replies.map SiteReply.group).map (fun vs => vs.map (·.element.name)) =
      [["run", "run (3)"], ["stop"], [], ["odd"]]
  := by
  have hgrants : dispatch.grants .uncancelled
      (callSiteVertices (.function "f" "m" ⟨"m.py"⟩ 1) (.root 0)).run = true := by decide +kernel
  rcases callSiteVertices_groups dispatch (.function "f" "m" ⟨"m.py"⟩ 1) (.root 0) hgrants with
    ⟨e, hanswers, _⟩ | ⟨replies, hanswers, hresult, _⟩
  · cases hanswers
  · have hreplies : replies.map SiteReply.answered = List.map SiteReply.answered [
        (.plain "run" ⟨"m.py"⟩ 2 4, .ok [.function "run" "a" ⟨"a.py"⟩ 1, .function "run" "a" ⟨"a.py"⟩ 1,
          .function "run" "b" ⟨"b.py"⟩ 1]),
        (.plain "stop" ⟨"m.py"⟩ 2 4, .error (.failed "scripted failure in goto:stop")),
        (.plain "print" ⟨"m.py"⟩ 2 4, .ok [.function "print" "builtins" ⟨"builtins.py"⟩ 1]),
        (.plain "odd" ⟨"m.py"⟩ 2 4, .ok [])] :=
      (List.cons.inj hanswers).2.symm
    rw [SiteReply.answered_injective.list_map hreplies] at hresult
    exact ⟨hgrants, _, hresult, by decide +kernel⟩

end Finding

end CallGraph
