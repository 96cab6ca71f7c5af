import CallGraph.Proofs.Source.Tree
import Mathlib.Data.List.Pairwise

/-!
# Where definitions stand

In an orderly tree each construct takes up a stretch of the source text.  If definitions inside a definition stand
in its body, then of two definitions the first one stops before the second one starts, or the second one stands in
the body of the first.  A leaf of a part without definitions is in no body of the definitions beside that part.
-/

namespace CallGraph.Source

namespace Extent

/-- A place is in an extent. -/
def Holds (e : Extent) (place : Location) : Prop :=
  e.start.location.notAfter place = true ∧ place.before e.stop.location = true

instance (e : Extent) (place : Location) : Decidable (e.Holds place) :=
  inferInstanceAs (Decidable (_ ∧ _))

theorem holds_iff {e : Extent} {place : Location} :
  e.Holds place ↔ e.low ≤ place.index ∧ place.index < e.high
  := by
  rw [Holds, Location.notAfter_iff, Location.before_iff, low, high]

end Extent

/-! ### Definitions -/

/-- What a definition in a tree opens: a scope of a kind with a name, and where the definition and its body
stand. -/
structure Opening where
  kind : ScopeKind
  name : Piece
  whole : Extent
  body : Extent

/-- What a construct with some parts opens, if it is a definition. -/
def Construct.opening? (construct : Construct) (extent : Extent) (parts : Parts) : Option Opening :=
  match construct.opens, parts.find? .name, parts.find? .body with
  | some kind, some (.identifier name extent'), some body =>
    some { kind, name := (name, extent'), whole := extent, body := body.extent }
  | _, _, _ => none

/-- What the definitions among some constructs open. -/
def openingsOf (constructs : List (Construct × Extent × Parts)) : List Opening :=
  constructs.filterMap fun c => c.1.opening? c.2.1 c.2.2

/-- What the definitions in a tree open, each before those inside it. -/
def Tree.openings (t : Tree) : List Opening :=
  openingsOf t.constructs

/-- What the definitions in some parts open. -/
def Parts.openings (parts : Parts) : List Opening :=
  openingsOf parts.constructs

theorem Tree.openings_node (construct : Construct) (extent : Extent) (parts : Parts) :
  (node construct extent parts).openings = (construct.opening? extent parts).toList ++ parts.openings
  := by
  rw [openings, constructs, openingsOf, List.filterMap_cons, Parts.openings, openingsOf]
  cases construct.opening? extent parts <;> rfl

theorem Construct.opening?_eq_none {construct : Construct} (hopens : construct.opens = none) (extent : Extent)
    (parts : Parts) :
  construct.opening? extent parts = none
  := by
  simp [opening?, hopens]

@[simp]
theorem Parts.openings_cons (label : Label) (tree : Tree) (rest : Parts) :
  (cons label tree rest).openings = tree.openings ++ rest.openings
  := by
  rw [openings, constructs, openingsOf, List.filterMap_append]
  rfl

theorem Parts.openings_eq (parts : Parts) :
  parts.openings = parts.toList.flatMap (·.2.openings)
  := by
  induction parts using Parts.induction with
  | nil => rfl
  | cons label tree rest ih => rw [openings_cons, ih, toList, List.flatMap_cons]

/-- A tree without definitions. -/
def Tree.DefinesNothing (t : Tree) : Prop :=
  ∀ c ∈ t.constructs, c.1.opens = none

instance (t : Tree) : Decidable t.DefinesNothing :=
  inferInstanceAs (Decidable (∀ c ∈ t.constructs, _))

theorem Tree.DefinesNothing.openings_eq {t : Tree} (ht : t.DefinesNothing) :
  t.openings = []
  := by
  rw [openings, openingsOf, List.filterMap_eq_nil_iff]
  exact fun c hc => Construct.opening?_eq_none (ht c hc) _ _

theorem Tree.IsPlain.definesNothing {t : Tree} (ht : t.IsPlain) :
  t.DefinesNothing
  :=
  fun c hc => (ht c hc).1

/-! ### Trees that are laid out -/

/-- An orderly tree in which the definitions inside a definition stand in its body. -/
structure Tree.IsLaidOut (t : Tree) : Prop where
  isOrderly : t.IsOrderly
  keeps : ∀ c ∈ t.constructs, c.1.opens ≠ none → ∀ part ∈ c.2.2.toList, part.1 ≠ .body → part.2.DefinesNothing

instance (t : Tree) : Decidable t.IsLaidOut :=
  decidable_of_iff (_ ∧ _) ⟨fun h => ⟨h.1, h.2⟩, fun h => ⟨h.isOrderly, h.keeps⟩⟩

/-- Parts that are such trees and stand one behind the other. -/
structure Parts.AreLaidOut (parts : Parts) : Prop where
  each : ∀ part ∈ parts.toList, part.2.IsLaidOut
  behind : parts.toList.Pairwise fun part part' => part.2.extent.high ≤ part'.2.extent.low

theorem Tree.IsLaidOut.parts {construct : Construct} {extent : Extent} {parts : Parts}
    (h : (node construct extent parts).IsLaidOut) :
  parts.AreLaidOut
  := by
  constructor
  · intro part hpart
    refine ⟨h.isOrderly.part hpart, fun c hc => h.keeps c ?_⟩
    rw [constructs, Parts.constructs_eq]
    exact List.mem_cons_of_mem _ (List.mem_flatMap_of_mem hpart hc)
  · exact h.isOrderly.behind

namespace Parts.AreLaidOut

theorem head {label : Label} {t : Tree} {rest : Parts} (h : (cons label t rest).AreLaidOut) :
  t.IsLaidOut
  :=
  h.each _ List.mem_cons_self

theorem tail {label : Label} {t : Tree} {rest : Parts} (h : (cons label t rest).AreLaidOut) :
  rest.AreLaidOut
  :=
  ⟨fun part hpart => h.each part (List.mem_cons_of_mem _ hpart), (List.pairwise_cons.mp h.behind).2⟩

/-- Of two different parts, one stops before the other one starts. -/
theorem apart {parts : Parts} (h : parts.AreLaidOut) {part part' : Label × Tree} (hpart : part ∈ parts.toList)
    (hpart' : part' ∈ parts.toList) (hne : part ≠ part') :
  part.2.extent.high ≤ part'.2.extent.low ∨ part'.2.extent.high ≤ part.2.extent.low
  := by
  let Apart (p p' : Label × Tree) : Prop :=
    p.2.extent.high ≤ p'.2.extent.low ∨ p'.2.extent.high ≤ p.2.extent.low
  have : Std.Symm Apart := ⟨fun _ _ => Or.symm⟩
  exact (h.behind.imp (S := Apart) Or.inl).forall hpart hpart' hne

end Parts.AreLaidOut

/-- The parts of a definition: its body and, before that, parts without definitions, among which is its name. -/
structure Parts.Define (parts : Parts) (front : List (Label × Tree)) (name : Piece) (body : Tree) : Prop where
  toList : parts.toList = front ++ [(.body, body)]
  name : (.name, .identifier name.1 name.2) ∈ front
  labels : ∀ part ∈ front, part.1 ≠ .body
  plain : ∀ part ∈ front, part.2.openings = []

/-- What a definition opens it makes of its parts. -/
theorem Tree.IsLaidOut.exists_define
    {construct : Construct} {extent : Extent} {parts : Parts} {kind : ScopeKind}
    (h : (node construct extent parts).IsLaidOut) (hopens : construct.opens = some kind) :
  ∃ front name body, parts.Define front name body ∧
    parts.find? .name = some (.identifier name.1 name.2) ∧
    construct.opening? extent parts = some ⟨kind, name, extent, body.extent⟩
  := by
  obtain ⟨hname, hend⟩ : parts.hasName .name = true ∧ parts.endIn .body = true := by
    have hadmits := h.isOrderly.admits
    cases construct <;> first | exact hadmits | cases hopens
  obtain ⟨text, extent', hfind, _⟩ := Parts.exists_find?_of_hasName hname
  obtain ⟨body, front, hbody, htoList, hlabels⟩ := Parts.exists_of_endIn hend
  refine ⟨front, (text, extent'), body, ?_, hfind, by rw [Construct.opening?, hopens, hfind, hbody]⟩
  constructor
  case toList => exact htoList
  case name =>
    have hmem := Parts.mem_of_find? hfind
    rw [htoList, List.mem_append, List.mem_singleton] at hmem
    exact hmem.resolve_right fun heq => by cases heq
  case labels => exact hlabels
  case plain =>
    intro part hpart
    apply Tree.DefinesNothing.openings_eq
    apply h.keeps _ List.mem_cons_self (by simp [hopens]) part _ (hlabels part hpart)
    rw [htoList]
    exact List.mem_append_left _ hpart

/-- The definitions in a tree stand inside it. -/
theorem Tree.IsOrderly.opening_inside {t : Tree} (ht : t.IsOrderly) {d : Opening} (hd : d ∈ t.openings) :
  t.extent.low ≤ d.whole.low ∧ d.whole.high ≤ t.extent.high
  := by
  induction t using Tree.induction with
  | identifier text extent => cases hd
  | token named text extent => cases hd
  | node construct extent parts ih =>
    rw [openings_node, List.mem_append, Option.mem_toList, Parts.openings_eq, List.mem_flatMap] at hd
    rcases hd with hd | ⟨part, hpart, hd⟩
    · unfold Construct.opening? at hd
      split at hd
      · cases hd
        exact ⟨Nat.le_refl _, Nat.le_refl _⟩
      · cases hd
    · have hinside := ht.inside hpart
      have hwhole := ih part hpart (ht.part hpart) hd
      simp only [Tree.extent]
      omega

/-! ### One definition and another one -/

/-- Of two definitions the first one stops before the second one starts, or the second one stands in the body of
the first.  A definition starts before its body and has some length. -/
structure AreNested (openings : List Opening) : Prop where
  long : ∀ d ∈ openings, d.whole.low < d.whole.high
  inside : ∀ d ∈ openings, ∀ place : Location, d.body.Holds place →
    d.whole.low < place.index ∧ place.index < d.whole.high
  apart : openings.Pairwise fun d e =>
    d.whole.high ≤ e.whole.low ∨ d.body.low ≤ e.whole.low ∧ e.whole.high ≤ d.body.high

theorem areNested_nil :
  AreNested []
  := by
  constructor <;> simp

theorem AreNested.append {xs ys : List Opening} (hxs : AreNested xs) (hys : AreNested ys)
    (h : ∀ d ∈ xs, ∀ e ∈ ys, d.whole.high ≤ e.whole.low) :
  AreNested (xs ++ ys)
  := by
  constructor
  · rw [List.forall_mem_append]
    exact ⟨hxs.long, hys.long⟩
  · rw [List.forall_mem_append]
    exact ⟨hxs.inside, hys.inside⟩
  · rw [List.pairwise_append]
    exact ⟨hxs.apart, hys.apart, fun d hd e he => .inl (h d hd e he)⟩

namespace Parts.Define

variable {parts : Parts} {front : List (Label × Tree)} {name : Piece} {body : Tree} (h : parts.Define front name body)

include h

theorem body_mem :
  (.body, body) ∈ parts.toList
  := by
  rw [h.toList]
  exact List.mem_append_right _ List.mem_cons_self

theorem front_mem {part : Label × Tree} (hpart : part ∈ front) :
  part ∈ parts.toList
  := by
  rw [h.toList]
  exact List.mem_append_left _ hpart

theorem openings_eq :
  parts.openings = body.openings
  := by
  rw [parts.openings_eq, h.toList, List.flatMap_append, List.flatMap_eq_nil_iff.mpr h.plain]
  simp

/-- What is before the body stops before the body starts. -/
theorem before_body (hparts : parts.AreLaidOut) {part : Label × Tree} (hpart : part ∈ front) :
  part.2.extent.high ≤ body.extent.low
  := by
  have hbehind := hparts.behind
  rw [h.toList, List.pairwise_append] at hbehind
  exact hbehind.2.2 part hpart (.body, body) (List.mem_singleton_self _)

/-- A definition together with those in its body. -/
theorem areNested
    {construct : Construct} {extent : Extent} (kind : ScopeKind) (hnode : (Tree.node construct extent parts).IsLaidOut)
    (hbody : AreNested body.openings) :
  AreNested (⟨kind, name, extent, body.extent⟩ :: body.openings)
  := by
  -- the name comes first, and what is in the body comes behind it
  have hname : extent.low ≤ name.2.low ∧ name.2.low < name.2.high ∧ name.2.high ≤ body.extent.low := by
    have hmem := h.front_mem h.name
    have hleaf := (hnode.isOrderly.part hmem).leaf_inside (p := name) List.mem_cons_self
    have hinside := hnode.isOrderly.inside hmem
    have hbefore := h.before_body hnode.parts h.name
    exact ⟨hinside.1, hleaf.2.1, hbefore⟩
  have hinside : body.extent.low ≤ body.extent.high ∧ body.extent.high ≤ extent.high :=
    (hnode.isOrderly.inside h.body_mem).2
  constructor
  · rw [List.forall_mem_cons]
    refine ⟨?_, hbody.long⟩
    dsimp only
    omega
  · rw [List.forall_mem_cons]
    refine ⟨fun place hholds => ?_, hbody.inside⟩
    rw [Extent.holds_iff] at hholds
    dsimp only at hholds ⊢
    omega
  · rw [List.pairwise_cons]
    exact ⟨fun e he => .inr ((hnode.isOrderly.part h.body_mem).opening_inside he), hbody.apart⟩

end Parts.Define

/-- What stands in a part stops before what stands in those behind it starts. -/
theorem Parts.AreLaidOut.openings_apart
    {label : Label} {t : Tree} {rest : Parts} (h : (Parts.cons label t rest).AreLaidOut) {d e : Opening}
    (hd : d ∈ t.openings) (he : e ∈ rest.openings) :
  d.whole.high ≤ e.whole.low
  := by
  rw [Parts.openings_eq, List.mem_flatMap] at he
  obtain ⟨part, hpart, he⟩ := he
  have hinside := h.head.isOrderly.opening_inside hd
  have hinside' := (h.tail.each part hpart).isOrderly.opening_inside he
  have hbehind := (List.pairwise_cons.mp h.behind).1 part hpart
  dsimp only at hbehind
  omega

/-- The definitions in a tree that is laid out are nested. -/
theorem Tree.IsLaidOut.areNested {t : Tree} (ht : t.IsLaidOut) :
  AreNested t.openings
  := by
  induction t using Tree.rec (motive_2 := fun parts => parts.AreLaidOut → AreNested parts.openings) with
  | identifier text extent => exact areNested_nil
  | token named text extent => exact areNested_nil
  | node construct extent parts ih =>
    rw [openings_node]
    cases hopens : construct.opens with
    | none =>
      rw [Construct.opening?_eq_none hopens]
      exact ih ht.parts
    | some kind =>
      obtain ⟨front, name, body, hdefine, _, hopening⟩ := ht.exists_define hopens
      have hbody := ih ht.parts
      rw [hdefine.openings_eq] at hbody
      rw [hopening, hdefine.openings_eq]
      exact hdefine.areNested kind ht hbody
  | nil => exact areNested_nil
  | cons label tree rest htree hrest =>
    rename_i hparts
    rw [Parts.openings_cons]
    exact (htree hparts.head).append (hrest hparts.tail) fun d hd e he => hparts.openings_apart hd he

theorem Parts.AreLaidOut.areNested {parts : Parts} (hparts : parts.AreLaidOut) :
  AreNested parts.openings
  := by
  induction parts using Parts.induction with
  | nil => exact areNested_nil
  | cons label tree rest ih =>
    rw [openings_cons]
    exact hparts.head.areNested.append (ih hparts.tail) fun d hd e he => hparts.openings_apart hd he

namespace AreNested

variable {ds : List Opening} (h : AreNested ds) {i j : Nat} {d e : Opening}

include h

/-- A definition holds the places that its body holds. -/
theorem holds_whole (hd : ds[i]? = some d) {place : Location} (hplace : d.body.Holds place) :
  d.whole.Holds place
  := by
  have hinside := h.inside d (List.mem_of_getElem? hd) place hplace
  rw [Extent.holds_iff]
  exact ⟨Nat.le_of_lt hinside.1, hinside.2⟩

/-- A definition holds the place where it starts. -/
theorem holds_start (hd : ds[i]? = some d) :
  d.whole.Holds d.whole.start.location
  := by
  rw [Extent.holds_iff]
  exact ⟨Nat.le_refl _, h.long d (List.mem_of_getElem? hd)⟩

variable (hd : ds[i]? = some d) (he : ds[j]? = some e)

include hd he

theorem apart_of_lt (hij : i < j) :
  d.whole.high ≤ e.whole.low ∨ d.body.low ≤ e.whole.low ∧ e.whole.high ≤ d.body.high
  := by
  obtain ⟨hi, rfl⟩ := List.getElem?_eq_some_iff.mp hd
  obtain ⟨hj, rfl⟩ := List.getElem?_eq_some_iff.mp he
  exact List.pairwise_iff_getElem.mp h.apart i j hi hj hij

/-- What comes later starts later. -/
theorem low_lt (hij : i < j) :
  d.whole.low < e.whole.low
  := by
  have hlong := h.long d (List.mem_of_getElem? hd)
  have hlong' := h.long e (List.mem_of_getElem? he)
  rcases h.apart_of_lt hd he hij with hapart | hin
  · omega
  · have hholds : d.body.Holds e.whole.start.location :=
      Extent.holds_iff.mpr ⟨hin.1, Nat.lt_of_lt_of_le hlong' hin.2⟩
    exact (h.inside d (List.mem_of_getElem? hd) _ hholds).1

/-- A body in which a definition starts is that of an earlier definition and reaches over the whole later one. -/
theorem around_of_holds (hholds : d.body.Holds e.whole.start.location) :
  i < j ∧ ∀ place, e.whole.Holds place → d.body.Holds place
  := by
  have hinside : d.whole.low < e.whole.low ∧ e.whole.low < d.whole.high :=
    h.inside d (List.mem_of_getElem? hd) _ hholds
  have hij : i < j := by
    rcases Nat.lt_trichotomy i j with hij | rfl | hij
    · exact hij
    · cases hd.symm.trans he
      exact absurd hinside.1 (Nat.lt_irrefl _)
    · exact absurd (h.low_lt he hd hij) (Nat.lt_asymm hinside.1)
  refine ⟨hij, fun place hplace => ?_⟩
  rcases h.apart_of_lt hd he hij with hapart | hin
  · omega
  · rw [Extent.holds_iff] at hplace ⊢
    omega

/-- If two definitions hold one place, the body of one of them holds the start of the other one. -/
theorem cases_of_holds {place : Location} (hplace : d.whole.Holds place) (hplace' : e.whole.Holds place) :
  i = j ∨ d.body.Holds e.whole.start.location ∨ e.body.Holds d.whole.start.location
  := by
  have hlong := h.long d (List.mem_of_getElem? hd)
  have hlong' := h.long e (List.mem_of_getElem? he)
  rw [Extent.holds_iff] at hplace hplace'
  rcases Nat.lt_trichotomy i j with hij | rfl | hij
  · rcases h.apart_of_lt hd he hij with hapart | hin
    · omega
    · exact .inr (.inl (Extent.holds_iff.mpr ⟨hin.1, Nat.lt_of_lt_of_le hlong' hin.2⟩))
  · exact .inl rfl
  · rcases h.apart_of_lt he hd hij with hapart | hin
    · omega
    · exact .inr (.inr (Extent.holds_iff.mpr ⟨hin.1, Nat.lt_of_lt_of_le hlong hin.2⟩))

end AreNested

/-- No body holds the place where the first definition starts. -/
theorem AreNested.not_holds_start {d : Opening} {ds : List Opening} (h : AreNested (d :: ds)) :
  ∀ e ∈ d :: ds, ¬ e.body.Holds d.whole.start.location
  := by
  intro e he hholds
  obtain ⟨j, hj⟩ := List.mem_iff_getElem?.mp he
  have hfirst : (d :: ds)[0]? = some d := rfl
  exact absurd (h.around_of_holds hj hfirst hholds).1 (Nat.not_lt_zero j)

/-! ### Places and bodies -/

/-- A place that a body of a definition in a tree holds is inside the tree. -/
theorem Tree.IsLaidOut.inside_of_holds {t : Tree} (ht : t.IsLaidOut) {d : Opening} (hd : d ∈ t.openings)
    {place : Location} (hholds : d.body.Holds place) :
  t.extent.low < place.index ∧ place.index < t.extent.high
  := by
  have hinside := ht.isOrderly.opening_inside hd
  have hwhole := ht.areNested.inside d hd place hholds
  omega

namespace Parts.AreLaidOut

section Cons

variable {label : Label} {t : Tree} {rest : Parts} (h : (cons label t rest).AreLaidOut) {place : Location}

include h

/-- A place in or behind a part that comes later is in no body of the definitions in the first part. -/
theorem not_holds_of_behind {part : Label × Tree} (hpart : part ∈ rest.toList)
    (hplace : part.2.extent.low ≤ place.index) {d : Opening} (hd : d ∈ t.openings) :
  ¬ d.body.Holds place
  := by
  intro hholds
  have hinside := h.head.inside_of_holds hd hholds
  have hbehind := (List.pairwise_cons.mp h.behind).1 part hpart
  dsimp only at hbehind
  omega

/-- A place in or before the first part is in no body of the definitions in the parts behind it. -/
theorem not_holds_of_before (hplace : place.index < t.extent.high) {d : Opening} (hd : d ∈ rest.openings) :
  ¬ d.body.Holds place
  := by
  intro hholds
  rw [openings_eq, List.mem_flatMap] at hd
  obtain ⟨part, hpart, hd⟩ := hd
  have hinside := (h.tail.each part hpart).inside_of_holds hd hholds
  have hbehind := (List.pairwise_cons.mp h.behind).1 part hpart
  dsimp only at hbehind
  omega

end Cons

/-- A leaf of a part without definitions is in no body of the definitions beside it. -/
theorem not_holds
    {parts : Parts} (h : parts.AreLaidOut) {part : Label × Tree} (hpart : part ∈ parts.toList)
    (hnone : part.2.openings = []) {q : Piece} (hq : q ∈ part.2.leaves) {d : Opening} (hd : d ∈ parts.openings) :
  ¬ d.body.Holds q.2.start.location
  := by
  intro hholds
  rw [openings_eq, List.mem_flatMap] at hd
  obtain ⟨part', hpart', hd⟩ := hd
  have hne : part ≠ part' := by
    rintro rfl
    rw [hnone] at hd
    cases hd
  have hleaf := (h.each part hpart).isOrderly.leaf_inside hq
  have hinside : part'.2.extent.low < q.2.low ∧ q.2.low < part'.2.extent.high :=
    (h.each part' hpart').inside_of_holds hd hholds
  have hapart := h.apart hpart hpart' hne
  omega

end Parts.AreLaidOut

namespace Parts.Define

variable {parts : Parts} {front : List (Label × Tree)} {name : Piece} {body : Tree}
variable (h : parts.Define front name body) (hparts : parts.AreLaidOut) {part : Label × Tree}

include h hparts

/-- The body of a definition holds its own leaves and none of the other ones. -/
theorem holds_leaf_iff (hpart : part ∈ parts.toList) {q : Piece} (hq : q ∈ part.2.leaves) :
  body.extent.Holds q.2.start.location ↔ part.1 = .body
  := by
  have hleaf := (hparts.each part hpart).isOrderly.leaf_inside hq
  rw [h.toList, List.mem_append, List.mem_singleton] at hpart
  rw [Extent.holds_iff]
  rcases hpart with hpart | rfl
  · refine iff_of_false (fun hholds => ?_) (h.labels part hpart)
    have hbefore := h.before_body hparts hpart
    have hstart : body.extent.low ≤ q.2.low := hholds.1
    omega
  · exact iff_of_true ⟨hleaf.1, Nat.lt_of_lt_of_le hleaf.2.1 hleaf.2.2⟩ rfl

/-- All definitions in the parts of a definition start in its body. -/
theorem holds_start_iff (hpart : part ∈ parts.toList) {d : Opening} (hd : d ∈ part.2.openings) :
  body.extent.Holds d.whole.start.location ↔ part.1 = .body
  := by
  have hinside := (hparts.each part hpart).isOrderly.opening_inside hd
  have hlong := (hparts.each part hpart).areNested.long d hd
  rw [h.toList, List.mem_append, List.mem_singleton] at hpart
  rcases hpart with hpart | rfl
  · rw [h.plain part hpart] at hd
    cases hd
  · rw [Extent.holds_iff]
    exact iff_of_true ⟨hinside.1, Nat.lt_of_lt_of_le hlong hinside.2⟩ rfl

end Parts.Define

end CallGraph.Source
