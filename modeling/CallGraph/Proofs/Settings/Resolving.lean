import CallGraph.Proofs.Settings.Repeats
import CallGraph.Proofs.Settings.Roots
import Mathlib.Data.List.Induction

/-!
# Entries resolved one after the other

Entries may be equal and yet have different outcomes, as paths do that are spelled in different ways.  The roots have
for each key the node and the error that came last for an entry equal to it.
-/

namespace CallGraph

variable {σ κ : Type} [BEq κ]

namespace Roots

/-- The roots with the outcomes of more entries, one after the other. -/
def addAll (r : Roots κ) (outcomes : List (κ × Except ResolutionError Node)) : Roots κ :=
  outcomes.foldl (fun r o => r.add o.1 o.2) r

/-- The node that the outcome of an entry gives to a key. -/
def nodeFor (key : κ) : κ × Except ResolutionError Node → Option Node
  | (k, .ok node) => if k == key then some node else none
  | (_, .error _) => none

/-- The error that the outcome of an entry gives to a key. -/
def errorFor (key : κ) : κ × Except ResolutionError Node → Option ResolutionError
  | (k, .error e) => if k == key then some e else none
  | (_, .ok _) => none

/-- Each key has the last node and the last error that came for it. -/
theorem find?_addAll [EquivBEq κ] (outcomes : List (κ × Except ResolutionError Node)) (key : κ) :
  (addAll {} outcomes).nodes.find? key = outcomes.reverse.findSome? (nodeFor key) ∧
    (addAll {} outcomes).failures.find? key = outcomes.reverse.findSome? (errorFor key)
  := by
  induction outcomes using List.reverseRecOn with
  | nil => exact ⟨rfl, rfl⟩
  | append_singleton outcomes o ih =>
    obtain ⟨k, outcome⟩ := o
    have hadd : addAll {} (outcomes ++ [(k, outcome)]) = (addAll {} outcomes).add k outcome := by
      rw [addAll, List.foldl_append]
      rfl
    rw [hadd, List.reverse_append, List.reverse_singleton, List.singleton_append, List.findSome?_cons,
      List.findSome?_cons, ← ih.1, ← ih.2]
    cases outcome with
    | ok node =>
      refine ⟨?_, rfl⟩
      rw [add, Ledger.find?_insert, nodeFor]
      split <;> rfl
    | error e =>
      refine ⟨rfl, ?_⟩
      rw [add, Ledger.find?_insert, errorFor]
      split <;> rfl

/-- A key that some entry resolved to a node for has a node, which an entry equal to it was resolved to. -/
theorem exists_find?_addAll [EquivBEq κ] {outcomes : List (κ × Except ResolutionError Node)} {key : κ} {node : Node}
    (h : (key, .ok node) ∈ outcomes) :
  ∃ key' node', (addAll {} outcomes).nodes.find? key = some node' ∧ (key', .ok node') ∈ outcomes ∧
    (key' == key) = true
  := by
  have hsome : (outcomes.reverse.findSome? (nodeFor key)).isSome = true := by
    rw [List.findSome?_isSome_iff]
    refine ⟨(key, .ok node), List.mem_reverse.mpr h, ?_⟩
    rw [nodeFor, if_pos BEq.rfl]
    rfl
  obtain ⟨node', hfound⟩ := Option.isSome_iff_exists.mp hsome
  obtain ⟨⟨key', outcome⟩, hmem, hnode⟩ := List.exists_of_findSome?_eq_some hfound
  cases outcome with
  | error e => cases hnode
  | ok =>
    rw [nodeFor] at hnode
    split at hnode
    case isFalse => cases hnode
    case isTrue hkey =>
      cases hnode
      exact ⟨key', _, (find?_addAll outcomes key).1.trans hfound, List.mem_reverse.mp hmem, hkey⟩

/-! ### Entries with the outcomes that they should have -/

omit [BEq κ] in
/-- What comes first of some entries comes of the first one that satisfies a condition, if this holds of each. -/
theorem rel_findSome? {β γ : Type} {R : β → κ → Prop} {f : κ × γ → Option β} {P : κ → Bool} {entries : List (κ × γ)}
    (h : ∀ e ∈ entries, Option.Rel R (f e) (if P e.1 then some e.1 else none)) :
  Option.Rel R (entries.findSome? f) ((entries.map (·.1)).find? P)
  := by
  induction entries with
  | nil => exact .none
  | cons e entries ih =>
    obtain ⟨he, hentries⟩ := List.forall_mem_cons.mp h
    rw [List.findSome?_cons, List.map_cons, List.find?_cons]
    generalize f e = found at he
    cases hP : P e.1 with
    | true =>
      rw [hP, if_pos rfl] at he
      cases he with
      | some hR => exact .some hR
    | false =>
      rw [hP, if_neg Bool.false_ne_true] at he
      cases he
      exact ih hentries

section Outcomes

variable {out : κ → Except ResolutionError Element} {E : Element → Element → Prop}
  {outcomes outcomes' : List (κ × Except ResolutionError Node)}

/-- The first node for a key is that of the first entry that should have one. -/
theorem rel_findSome?_nodeFor
    (h : ∀ k o, (k, o) ∈ outcomes → Outcomes.Related E Eq (o.map Node.element) (out k)) (key : κ) :
  Option.Rel (fun node k => ∃ e, out k = .ok e ∧ E node.element e) (outcomes.findSome? (nodeFor key))
    ((outcomes.map (·.1)).find? fun k => k == key && (out k).isOk)
  := by
  apply rel_findSome?
  rintro ⟨k, o⟩ hmem
  have hrelated := h k o hmem
  cases hkey : k == key with
  | false => cases o <;> simp [nodeFor, hkey]
  | true =>
    cases hout : out k with
    | error e =>
      rw [hout] at hrelated
      cases o with
      | ok node => cases hrelated
      | error e => simp [nodeFor, Except.isOk, Except.toBool]
    | ok e =>
      rw [hout] at hrelated
      cases o with
      | error e => cases hrelated
      | ok node =>
        cases hrelated with
        | ok hE =>
          rw [nodeFor, if_pos hkey]
          exact .some ⟨e, hout, hE⟩

/-- The first error for a key is that of the first entry that should have one. -/
theorem rel_findSome?_errorFor
    (h : ∀ k o, (k, o) ∈ outcomes → Outcomes.Related E Eq (o.map Node.element) (out k)) (key : κ) :
  Option.Rel (fun error k => out k = .error error) (outcomes.findSome? (errorFor key))
    ((outcomes.map (·.1)).find? fun k => k == key && !(out k).isOk)
  := by
  apply rel_findSome?
  rintro ⟨k, o⟩ hmem
  have hrelated := h k o hmem
  cases hkey : k == key with
  | false => cases o <;> simp [errorFor, hkey]
  | true =>
    cases hout : out k with
    | ok e =>
      rw [hout] at hrelated
      cases o with
      | error e => cases hrelated
      | ok node => simp [errorFor, Except.isOk, Except.toBool]
    | error e =>
      rw [hout] at hrelated
      cases o with
      | ok node => cases hrelated
      | error e' =>
        cases hrelated with
        | error heq =>
          rw [errorFor, if_pos hkey]
          exact .some (hout.trans (congrArg _ heq.symm))

/-- Entries that should have the same outcomes give roots that agree, if the same entry comes last for every key. -/
theorem agree_addAll [EquivBEq κ] (hE : ∀ a b c, E a c → E b c → E a b)
    (h : ∀ k o, (k, o) ∈ outcomes → Outcomes.Related E Eq (o.map Node.element) (out k))
    (h' : ∀ k o, (k, o) ∈ outcomes' → Outcomes.Related E Eq (o.map Node.element) (out k))
    (hlast : SameLast (outcomes.map (·.1)) (outcomes'.map (·.1))) :
  (addAll {} outcomes).Agree E Eq (addAll {} outcomes')
  := by
  have hreverse {outcomes : List (κ × Except ResolutionError Node)}
      (h : ∀ k o, (k, o) ∈ outcomes → Outcomes.Related E Eq (o.map Node.element) (out k)) :
      ∀ k o, (k, o) ∈ outcomes.reverse → Outcomes.Related E Eq (o.map Node.element) (out k) :=
    fun k o hmem => h k o (List.mem_reverse.mp hmem)
  constructor
  · intro key
    have hnode := rel_findSome?_nodeFor (hreverse h) key
    have hnode' := rel_findSome?_nodeFor (hreverse h') key
    rw [List.map_reverse, hlast key fun k => (out k).isOk, ← List.map_reverse] at hnode
    rw [(find?_addAll outcomes key).1, (find?_addAll outcomes' key).1]
    generalize outcomes.reverse.findSome? (nodeFor key) = node at hnode ⊢
    generalize outcomes'.reverse.findSome? (nodeFor key) = node' at hnode' ⊢
    generalize (outcomes'.reverse.map (·.1)).find? (fun k => k == key && (out k).isOk) = last at hnode hnode'
    cases hnode with
    | none =>
      cases hnode'
      exact .none
    | some hfound =>
      cases hnode' with
      | some hfound' =>
        obtain ⟨e, hout, hrelated⟩ := hfound
        obtain ⟨e', hout', hrelated'⟩ := hfound'
        rw [hout] at hout'
        cases hout'
        exact .some (hE _ _ _ hrelated hrelated')
  · intro key
    have herror := rel_findSome?_errorFor (hreverse h) key
    have herror' := rel_findSome?_errorFor (hreverse h') key
    rw [List.map_reverse, hlast key fun k => !(out k).isOk, ← List.map_reverse] at herror
    rw [(find?_addAll outcomes key).2, (find?_addAll outcomes' key).2]
    generalize outcomes.reverse.findSome? (errorFor key) = error at herror ⊢
    generalize outcomes'.reverse.findSome? (errorFor key) = error' at herror' ⊢
    generalize (outcomes'.reverse.map (·.1)).find? (fun k => k == key && !(out k).isOk) = last at herror herror'
    cases herror with
    | none =>
      cases herror'
      exact .none
    | some hfound =>
      cases herror' with
      | some hfound' => exact .some (Except.error.inj (hfound.symm.trans hfound'))

end Outcomes

end Roots

namespace Workspace

/-- Entries that are resolved one after the other, from one workspace to another, with what comes of each.  An error is
logged, and the next entry is resolved all the same. -/
inductive ResolvesAll (resolve : κ → Search (Except ResolutionError Node)) :
    Workspace σ → List (κ × Except ResolutionError Node) → Workspace σ → Prop where
  | none (w : Workspace σ) : ResolvesAll resolve w [] w
  | resolved {w w₁ w₂ : Workspace σ} {key : κ} {node : Node} {outcomes : List (κ × Except ResolutionError Node)}
      (run : w.run (resolve key) = (.ok node, w₁)) (rest : ResolvesAll resolve w₁ outcomes w₂) :
      ResolvesAll resolve w ((key, .ok node) :: outcomes) w₂
  | failed {w w₁ w₂ : Workspace σ} {key : κ} {e : ResolutionError} {outcomes : List (κ × Except ResolutionError Node)}
      (run : w.run (resolve key) = (.error e, w₁))
      (rest : ResolvesAll resolve (w₁.note (.warn e.message)) outcomes w₂) :
      ResolvesAll resolve w ((key, .error e) :: outcomes) w₂

/-- Roots are made of the outcomes of their entries, each of which is resolved. -/
theorem exists_resolvesAll (resolve : κ → Search (Except ResolutionError Node)) (r : Roots κ) (keys : List κ)
    (w : Workspace σ) :
  ∃ outcomes, ResolvesAll resolve w outcomes (w.run (Search.rootsOf resolve r keys)).2 ∧
    (w.run (Search.rootsOf resolve r keys)).1 = r.addAll outcomes ∧ outcomes.map (·.1) = keys
  := by
  induction keys generalizing r w with
  | nil => exact ⟨[], .none w, rfl, rfl⟩
  | cons key keys ih =>
    rw [Search.rootsOf, run_bind]
    rcases hresolved : w.run (resolve key) with ⟨e | node, w₁⟩
    · obtain ⟨outcomes, hrest, hroots, hkeys⟩ := ih (r.add key (.error e)) (w₁.note (.warn e.message))
      exact ⟨(key, .error e) :: outcomes, .failed hresolved hrest, hroots, congrArg (key :: ·) hkeys⟩
    · obtain ⟨outcomes, hrest, hroots, hkeys⟩ := ih (r.add key (.ok node)) w₁
      exact ⟨(key, .ok node) :: outcomes, .resolved hresolved hrest, hroots, congrArg (key :: ·) hkeys⟩

omit [BEq κ] in
/-- What resolving entries keeps holds in every workspace in which one of them is resolved. -/
theorem ResolvesAll.keeps {resolve : κ → Search (Except ResolutionError Node)} {keeps : Workspace σ → Prop}
    (hresolve : ∀ key w, keeps w → keeps (w.run (resolve key)).2) (hnote : ∀ line w, keeps w → keeps (w.note line))
    {w w' : Workspace σ} {outcomes : List (κ × Except ResolutionError Node)}
    (h : ResolvesAll resolve w outcomes w') (hw : keeps w) :
  keeps w' ∧ ∀ key outcome, (key, outcome) ∈ outcomes → ∃ u, keeps u ∧ outcome = (u.run (resolve key)).1
  := by
  -- The first entry is resolved in `w` itself.
  have hcons {w : Workspace σ} {key : κ} {outcome : Except ResolutionError Node}
      {outcomes : List (κ × Except ResolutionError Node)} (hw : keeps w) (houtcome : outcome = (w.run (resolve key)).1)
      (houtcomes : ∀ k o, (k, o) ∈ outcomes → ∃ u, keeps u ∧ o = (u.run (resolve k)).1) :
      ∀ k o, (k, o) ∈ (key, outcome) :: outcomes → ∃ u, keeps u ∧ o = (u.run (resolve k)).1 := by
    intro k o hmem
    rcases List.mem_cons.mp hmem with hhead | hmem
    · cases hhead
      exact ⟨w, hw, houtcome⟩
    · exact houtcomes k o hmem
  induction h with
  | none w => exact ⟨hw, nofun⟩
  | @resolved w w₁ w₂ key node outcomes hresolved _ ih =>
    have hkept : keeps w₁ := by simpa only [hresolved] using hresolve key w hw
    obtain ⟨hend, houtcomes⟩ := ih hkept
    exact ⟨hend, hcons hw (by rw [hresolved]) houtcomes⟩
  | @failed w w₁ w₂ key e outcomes hresolved _ ih =>
    have hkept : keeps w₁ := by simpa only [hresolved] using hresolve key w hw
    obtain ⟨hend, houtcomes⟩ := ih (hnote _ w₁ hkept)
    exact ⟨hend, hcons hw (by rw [hresolved]) houtcomes⟩

/-- Each entry is resolved in a workspace that has kept what resolving entries keeps. -/
theorem exists_run_rootsOf (keeps : Workspace σ → Prop) {resolve : κ → Search (Except ResolutionError Node)}
    (hresolve : ∀ key w, keeps w → keeps (w.run (resolve key)).2)
    (hlog : ∀ line w, keeps w → keeps (w.run (Search.log line)).2) {w : Workspace σ} (hw : keeps w) (r : Roots κ)
    (keys : List κ) :
  keeps (w.run (Search.rootsOf resolve r keys)).2 ∧
    ∃ outcomes, (w.run (Search.rootsOf resolve r keys)).1 = r.addAll outcomes ∧ outcomes.map (·.1) = keys ∧
      ∀ key outcome, (key, outcome) ∈ outcomes → ∃ w', keeps w' ∧ outcome = (w'.run (resolve key)).1
  := by
  obtain ⟨outcomes, hall, hroots, hkeys⟩ := exists_resolvesAll resolve r keys w
  obtain ⟨hkept, houtcomes⟩ := hall.keeps hresolve hlog hw
  exact ⟨hkept, outcomes, hroots, hkeys, houtcomes⟩

end Workspace

end CallGraph
