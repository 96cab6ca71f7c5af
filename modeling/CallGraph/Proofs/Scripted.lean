import CallGraph.Provider.Scripted
import CallGraph.Proofs.Search.Truthful

/-!
# The provider that answers from tables

It leaves the searches under way as they are, and its answers are fixed as long as nobody changes the tables
or makes questions fail.
-/

namespace CallGraph.Scripted

/-- Taking a question leaves the searches as they are. -/
theorem searches_pose (q : Question) (d : Provider.Desk Scripted) :
  (provider.pose q d).2.searches = d.searches
  := by
  cases q <;> rfl

/-- Answering a question leaves the searches as they are. -/
theorem searches_answer (files : FileTree) (q : Question) (token : Option Token)
    (d : Provider.Desk Scripted) :
  (provider.answer files q token d).2.searches = d.searches
  := by
  change (answer q token d).2.searches = d.searches
  unfold answer
  split
  case isTrue => rfl
  case isFalse =>
    split
    case h_1 => rfl
    case h_2 => split <;> rfl

/-- The provider does not reach the handles of tasks. -/
theorem provider_sparesHandles :
  provider.SparesHandles
  where
  pose q d := (searches_pose q d).symm ▸ .refl d.searches
  answer files q token d := (searches_answer files q token d).symm ▸ .refl d.searches

/-- A line in the record changes no answer. -/
theorem tabled_note (s : Scripted) (line : String) (q : Question) :
  (s.note line).tabled q = s.tabled q
  := by
  cases q <;> rfl

/-- Equal keys have the same entry. -/
theorem last?_congr {κ ν : Type} [BEq κ] [EquivBEq κ] (table : List (κ × ν)) {key key' : κ}
    (h : (key == key') = true) :
  last? table key = last? table key'
  := by
  rw [last?, last?]
  induction table.reverse with
  | nil => rfl
  | cons entry rest ih => rw [List.lookup_cons, List.lookup_cons, BEq.congr_left h, ih]

/-- What is found in a table is one of its entries. -/
theorem mem_of_last? {κ ν : Type} [BEq κ] {table : List (κ × ν)} {key : κ} {value : ν}
    (h : last? table key = some value) :
  value ∈ table.map Prod.snd
  := by
  have hmem (table : List (κ × ν)) (h : table.lookup key = some value) : value ∈ table.map Prod.snd := by
    induction table with
    | nil => cases h
    | cons entry rest ih =>
      rw [List.lookup_cons] at h
      split at h
      · cases h
        exact List.mem_cons_self
      · exact List.mem_cons_of_mem _ (ih h)
  have hreversed := hmem table.reverse h
  rwa [List.map_reverse, List.mem_reverse] at hreversed

/-- The states in which no question fails and the tables say what those of `s` do. -/
def Agrees (s t : Scripted) : Prop :=
  t.failing = [] ∧ ∀ q, t.tabled q = s.tabled q

/-- A line in the record leaves the tables as they are. -/
theorem Agrees.note {s t : Scripted} (h : s.Agrees t) (line : String) :
  s.Agrees (t.note line)
  :=
  ⟨h.1, fun q => (t.tabled_note line q).trans (h.2 q)⟩

/-- A question is recorded and does not fail. -/
theorem Agrees.record {s t : Scripted} (h : s.Agrees t) (q : Question) :
  t.record q = (.ok (), t.note q.key)
  := by
  have hfailing : (t.note q.key).failing = [] := h.1
  rw [Scripted.record, hfailing]
  rfl

/-- The answers are fixed while no question fails. -/
theorem provider_isSteady (s : Scripted) (files : FileTree) :
  provider.IsSteady files s.tabled s.Agrees
  where
  pose q d e hagrees herror := by
    cases q with
    | callSites scope =>
        simp only [provider, pose, hagrees.record] at herror
        cases herror
    | _ => cases herror
  answer q token d hagrees huncancelled := by
    cases q with
    | callSites scope =>
        simp only [provider, answer, huncancelled, Bool.false_eq_true, if_false]
        apply hagrees.2 _
    | _ =>
        simp only [provider, answer, huncancelled, Bool.false_eq_true, if_false, hagrees.record, tabled_note]
        apply hagrees.2 _
  states_pose q d hagrees := by
    cases q with
    | callSites scope =>
        simp only [provider, pose, hagrees.record]
        apply hagrees.note _
    | _ => apply hagrees
  states_answer q token d hagrees := by
    change s.Agrees (answer q token d).2.state
    unfold answer
    split
    case isTrue => apply hagrees
    case isFalse =>
      cases q with
      | callSites scope => apply hagrees
      | usages anchor paths =>
          simp only [hagrees.record]
          apply (hagrees.note _).note _
      | _ =>
          simp only [hagrees.record]
          apply hagrees.note _
  searches_pose := searches_pose
  searches_answer := searches_answer

end CallGraph.Scripted
