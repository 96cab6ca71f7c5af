import CallGraph.Proofs.Ledger
import CallGraph.Proofs.Search.Roots
import CallGraph.Proofs.Settings.Repeats
import CallGraph.Settings.Project

/-!
# Roots and their outcomes

`Outcomes` says which outcomes an entry may have, and does not tell equal entries apart.  `Roots.Tracks` says
that roots show such an outcome for each of some entries and for no others; resolving entries comes to this,
and reconciling takes it from one list of entries to another.  Where the outcomes of an entry agree, no entry
is both resolved and failed, and any roots that track the same entries agree.
-/

namespace CallGraph

/-- The outcomes that an entry may have; equal entries may have the same ones. -/
structure Outcomes (κ : Type) [BEq κ] where
  may : κ → Except ResolutionError Element → Prop
  congr : ∀ {key key' : κ} {outcome : Except ResolutionError Element}, (key == key') = true →
    may key outcome → may key' outcome

/-- Outcomes that are both elements or both errors, and related. -/
inductive Outcomes.Related (E : Element → Element → Prop) (F : ResolutionError → ResolutionError → Prop) :
    Except ResolutionError Element → Except ResolutionError Element → Prop where
  | ok {a b : Element} (related : E a b) : Related E F (.ok a) (.ok b)
  | error {e f : ResolutionError} (related : F e f) : Related E F (.error e) (.error f)

namespace Roots

variable {κ : Type} [BEq κ]

/-- Roots whose entries are exactly some entries, each of which is resolved or failed but not both. -/
def Covers (r : Roots κ) (entries : List κ) : Prop :=
  ∀ key, (entries.contains key ↔ r.nodes.contains key ∨ r.failures.contains key) ∧
    ¬ (r.nodes.contains key ∧ r.failures.contains key)

/-- Roots that have nodes and errors for the same entries, and related ones. -/
structure Agree (E : Element → Element → Prop) (F : ResolutionError → ResolutionError → Prop)
    (r r' : Roots κ) : Prop where
  nodes : ∀ key, Option.Rel (fun a b => E a.element b.element) (r.nodes.find? key) (r'.nodes.find? key)
  failures : ∀ key, Option.Rel F (r.failures.find? key) (r'.failures.find? key)

/-- Roots that show for each of some entries, and for no others, an outcome that it may have. -/
structure Tracks (r : Roots κ) (entries : List κ) (O : Outcomes κ) : Prop where
  tracked : ∀ key, entries.contains key = (r.nodes.contains key || r.failures.contains key)
  nodes : ∀ e ∈ r.nodes.entries, O.may e.1 (.ok e.2.element)
  failures : ∀ e ∈ r.failures.entries, O.may e.1 (.error e.2)

namespace Tracks

variable {r r' current resolved : Roots κ} {entries previous new : List κ} {O : Outcomes κ}

/-! ### What tracked entries show -/

/-- The element that is shown for an entry is one that it may have. -/
theorem may_ok (h : r.Tracks entries O) {key : κ} {node : Node} (hnode : r.nodes.find? key = some node) :
  O.may key (.ok node.element)
  := by
  obtain ⟨e, he, hkey, rfl⟩ := Ledger.exists_mem_of_find? hnode
  apply O.congr hkey (h.nodes e he)

/-- The error that is shown for an entry is one that it may have. -/
theorem may_error (h : r.Tracks entries O) {key : κ} {error : ResolutionError}
    (herror : r.failures.find? key = some error) :
  O.may key (.error error)
  := by
  obtain ⟨e, he, hkey, rfl⟩ := Ledger.exists_mem_of_find? herror
  apply O.congr hkey (h.failures e he)

/-- A tracked entry has a node or an error. -/
theorem exists_node_or_error (h : r.Tracks entries O) {key : κ} (hkey : entries.contains key = true) :
  (∃ node, r.nodes.find? key = some node) ∨ ∃ error, r.failures.find? key = some error
  := by
  rw [h.tracked, Bool.or_eq_true, Ledger.contains_eq_isSome, Ledger.contains_eq_isSome] at hkey
  apply hkey.imp Option.isSome_iff_exists.mp Option.isSome_iff_exists.mp

/-- What is not tracked has neither a node nor an error. -/
theorem find?_eq_none (h : r.Tracks entries O) {key : κ} (hkey : entries.contains key = false) :
  r.nodes.find? key = none ∧ r.failures.find? key = none
  := by
  rw [h.tracked, Bool.or_eq_false_iff] at hkey
  apply hkey.imp (Ledger.find?_eq_none_iff _ _).mpr (Ledger.find?_eq_none_iff _ _).mpr

section Related

variable {E : Element → Element → Prop} {F : ResolutionError → ResolutionError → Prop}
  (hrelated : ∀ {key : κ} {o o' : Except ResolutionError Element}, O.may key o → O.may key o' →
    Outcomes.Related E F o o')

include hrelated

/-- An entry with a node has no error. -/
theorem failures_eq_none (h : r.Tracks entries O) {key : κ} {node : Node}
    (hnode : r.nodes.find? key = some node) :
  r.failures.find? key = none
  := by
  cases herror : r.failures.find? key with
  | none => rfl
  | some error => cases hrelated (h.may_ok hnode) (h.may_error herror)

/-- An entry with an error has no node. -/
theorem nodes_eq_none (h : r.Tracks entries O) {key : κ} {error : ResolutionError}
    (herror : r.failures.find? key = some error) :
  r.nodes.find? key = none
  := by
  cases hnode : r.nodes.find? key with
  | none => rfl
  | some node => cases hrelated (h.may_ok hnode) (h.may_error herror)

/-- If the outcomes of an entry are related, no entry is both resolved and failed. -/
theorem covers (h : r.Tracks entries O) :
  r.Covers entries
  := by
  intro key
  constructor
  · rw [h.tracked, Bool.or_eq_true]
  · rintro ⟨hnode, herror⟩
    rw [Ledger.contains_eq_isSome] at hnode herror
    obtain ⟨node, hnode⟩ := Option.isSome_iff_exists.mp hnode
    rw [h.failures_eq_none hrelated hnode] at herror
    cases herror

/-- If the outcomes of an entry are related, any roots that track the same entries agree. -/
theorem agree (h : r.Tracks entries O) (h' : r'.Tracks entries O) :
  r.Agree E F r'
  := by
  have hagree : ∀ key,
      Option.Rel (fun a b => E a.element b.element) (r.nodes.find? key) (r'.nodes.find? key) ∧
        Option.Rel F (r.failures.find? key) (r'.failures.find? key) := by
    intro key
    cases hkey : entries.contains key with
    | false =>
        obtain ⟨hnode, herror⟩ := h.find?_eq_none hkey
        obtain ⟨hnode', herror'⟩ := h'.find?_eq_none hkey
        rw [hnode, herror, hnode', herror']
        exact ⟨.none, .none⟩
    | true =>
        rcases h.exists_node_or_error hkey with ⟨node, hnode⟩ | ⟨error, herror⟩
        · rcases h'.exists_node_or_error hkey with ⟨node', hnode'⟩ | ⟨error', herror'⟩
          · rw [h.failures_eq_none hrelated hnode, h'.failures_eq_none hrelated hnode', hnode, hnode']
            cases hrelated (h.may_ok hnode) (h'.may_ok hnode') with
            | ok related => exact ⟨.some related, .none⟩
          · cases hrelated (h.may_ok hnode) (h'.may_error herror')
        · rcases h'.exists_node_or_error hkey with ⟨node', hnode'⟩ | ⟨error', herror'⟩
          · cases hrelated (h.may_error herror) (h'.may_ok hnode')
          · rw [h.nodes_eq_none hrelated herror, h'.nodes_eq_none hrelated herror', herror, herror']
            cases hrelated (h.may_error herror) (h'.may_error herror') with
            | error related => exact ⟨.none, .some related⟩
  exact ⟨fun key => (hagree key).1, fun key => (hagree key).2⟩

end Related

/-! ### What comes in and goes -/

/-- Without entries nothing is tracked. -/
theorem empty (O : Outcomes κ) :
  ({} : Roots κ).Tracks [] O
  :=
  ⟨fun _ => rfl, nofun, nofun⟩

variable [EquivBEq κ]

/-- The outcome of one more entry. -/
theorem add (h : r.Tracks entries O) {key : κ} {outcome : Except ResolutionError Node}
    (houtcome : O.may key (outcome.map Node.element)) :
  (r.add key outcome).Tracks (entries ++ [key]) O
  := by
  have hcontains : ∀ k, (entries ++ [key]).contains k = (key == k || entries.contains k) := by
    intro k
    rw [List.contains_eq_any_beq, List.any_append, List.any_cons, List.any_nil, Bool.or_false, Bool.or_comm,
      BEq.comm, List.contains_eq_any_beq]
  cases outcome with
  | ok node =>
      constructor
      · intro k
        rw [hcontains, h.tracked, Roots.add, Ledger.contains_insert, Bool.or_assoc]
      · intro e he
        rcases Ledger.mem_insert he with he | ⟨hkey, hvalue⟩
        · apply h.nodes e he
        · rw [hvalue]
          apply O.congr hkey houtcome
      · apply h.failures
  | error error =>
      constructor
      · intro k
        rw [hcontains, h.tracked, Roots.add, Ledger.contains_insert, Bool.or_left_comm]
      · apply h.nodes
      · intro e he
        rcases Ledger.mem_insert he with he | ⟨hkey, hvalue⟩
        · apply h.failures e he
        · rw [hvalue]
          apply O.congr hkey houtcome

/-- Entries that are resolved one after the other. -/
theorem rootsOf {σ : Type} {w : Workspace σ} {answers : (q : Question) → Except ProviderError q.Answer}
    {resolve : κ → Search (Except ResolutionError Node)} (h : r.Tracks entries O)
    (hw : w.Answers answers) (keys : List κ)
    (hresolve : ∀ key ∈ keys, ∀ w' : Workspace σ, w'.Answers answers → w'.files = w.files →
      O.may key ((w'.run (resolve key)).1.map Node.element)) :
  (w.run (Search.rootsOf resolve r keys)).1.Tracks (entries ++ keys) O
  := by
  induction keys generalizing r entries w with
  | nil =>
      rw [List.append_nil]
      apply h
  | cons key keys ih =>
      have hadded := h.add (hresolve key List.mem_cons_self w hw rfl)
      have hrest : ∀ w' : Workspace σ, w'.Answers answers → w'.files = w.files →
          (w'.run (Search.rootsOf resolve (r.add key (w.run (resolve key)).1) keys)).1.Tracks
            (entries ++ key :: keys) O := by
        intro w' hw' hfiles
        rw [List.append_cons]
        apply ih hadded hw'
        intro k hk w'' hw'' hfiles'
        apply hresolve k (List.mem_cons_of_mem _ hk) w'' hw'' (hfiles'.trans hfiles)
      rw [Search.rootsOf, Workspace.run_bind]
      have hw₁ := hw.run (resolve key)
      have hfiles₁ := Workspace.files_run (resolve key) w
      generalize w.run (resolve key) = resolved at *
      obtain ⟨outcome, w₁⟩ := resolved
      cases outcome with
      | ok node => apply hrest w₁ hw₁ hfiles₁
      | error error => apply hrest _ (hw₁.run (Search.log _)) hfiles₁

omit [EquivBEq κ] in
/-- The entries that are dropped lose their nodes. -/
theorem snd_foldl_stale (dropped : List κ) (stale : List Node) (nodes : Ledger κ Node) :
  (dropped.foldl (fun (acc : List Node × Ledger κ Node) key =>
    (acc.1 ++ (acc.2.find? key).toList, acc.2.erase key)) (stale, nodes)).2 = dropped.foldl Ledger.erase nodes
  := by
  induction dropped generalizing stale nodes with
  | nil => rfl
  | cons key dropped ih => apply ih _ _

/-- The entries of a list that another one lacks. -/
theorem contains_filter_not_contains (list others : List κ) (key : κ) :
  (list.filter fun k => !others.contains k).contains key = (list.contains key && !others.contains key)
  := by
  rw [Bool.eq_iff_iff, Bool.and_eq_true, List.contains_iff_exists_mem_beq, List.contains_iff_exists_mem_beq]
  constructor
  · rintro ⟨k, hk, hkey⟩
    obtain ⟨hlist, hothers⟩ := List.mem_filter.mp hk
    rw [List.contains_congr hkey]
    exact ⟨⟨k, hlist, hkey⟩, hothers⟩
  · rintro ⟨⟨k, hlist, hkey⟩, hothers⟩
    rw [List.contains_congr hkey] at hothers
    exact ⟨k, List.mem_filter.mpr ⟨hlist, hothers⟩, hkey⟩

/-- Roots brought from one list of entries to another. -/
theorem reconcile (h : current.Tracks previous O)
    (hresolved : resolved.Tracks (Project.added previous new) O) :
  (Project.reconcile previous new current resolved).2.Tracks new O
  := by
  simp only [Project.reconcile, snd_foldl_stale]
  constructor
  · intro key
    have hcurrent := h.tracked key
    have hadded := hresolved.tracked key
    rw [Project.added, contains_filter_not_contains] at hadded
    rw [Ledger.contains_extend, Ledger.contains_extend, Ledger.contains_foldl_erase,
      Ledger.contains_foldl_erase, contains_filter_not_contains]
    grind
  · intro e he
    rcases Ledger.mem_extend he with he | ⟨d, hd, hkey, hvalue⟩
    · apply h.nodes e (Ledger.mem_of_mem_foldl_erase he)
    · rw [hvalue]
      apply O.congr hkey (hresolved.nodes d hd)
  · intro e he
    rcases Ledger.mem_extend he with he | ⟨d, hd, hkey, hvalue⟩
    · apply h.failures e (Ledger.mem_of_mem_foldl_erase he)
    · rw [hvalue]
      apply O.congr hkey (hresolved.failures d hd)

end Tracks

/-! ### What is dropped -/

variable [EquivBEq κ] {previous new : List κ}

/-- The nodes of the entries that are dropped, each once. -/
theorem fst_foldl_stale (nodes : Ledger κ Node) (kept items : List κ) {m : Ledger κ Node}
    (hm : ∀ key, m.find? key = if kept.contains key then none else nodes.find? key) :
  (items.foldl (fun (acc : List Node × Ledger κ Node) key =>
    (acc.1 ++ (acc.2.find? key).toList, acc.2.erase key)) (kept.filterMap nodes.find?, m)).1 =
      (Project.appendMissing kept items).filterMap nodes.find?
  := by
  induction items generalizing kept m with
  | nil => rfl
  | cons a items ih =>
    have herased (key : κ) :
        (m.erase a).find? key = if (Project.appendMissing kept [a]).contains key then none else nodes.find? key := by
      rw [Ledger.find?_erase, hm, contains_appendMissing_singleton]
      cases a == key <;> simp
    have hstale : kept.filterMap nodes.find? ++ (m.find? a).toList =
        (Project.appendMissing kept [a]).filterMap nodes.find? := by
      rw [hm, appendMissing_cons]
      split
      case isTrue => exact List.append_nil _
      case isFalse =>
        refine Eq.trans ?_ List.filterMap_append.symm
        cases hnode : nodes.find? a <;> simp [hnode]
    rw [List.foldl_cons, hstale]
    exact ih _ herased

/-- The nodes of the entries that a list lacks go, in the order of these and each once. -/
theorem stale_reconcile (current resolved : Roots κ) :
  (Project.reconcile previous new current resolved).1.stale =
    (distinct (Project.added new previous)).filterMap current.nodes.find?
  :=
  fst_foldl_stale current.nodes [] _ fun _ => rfl

end Roots

end CallGraph
