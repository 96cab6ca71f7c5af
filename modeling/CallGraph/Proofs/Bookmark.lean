import CallGraph.Bookmark
import CallGraph.Proofs.Search.Sameness

/-!
# Matches

The row that is followed for a saved element is the first that agrees with it exactly; where none does, it is the first
that comes near, and where none comes near either there is nothing to follow.
-/

namespace CallGraph

theorem matchDegree_of_equal {candidate target : Element} (h : Equal candidate target) :
  matchDegree candidate target = some .exact
  :=
  if_pos h

theorem equal_of_matchDegree {candidate target : Element} (h : matchDegree candidate target = some .exact) :
  Equal candidate target
  := by
  unfold matchDegree at h
  split at h
  case isTrue hequal => exact hequal
  case isFalse =>
    split at h
    case isTrue => cases h
    case isFalse => split at h <;> cases h

/-- A row is the first of some elements that agrees exactly with a target. -/
structure IsFirstExact (target : Element) (elements : List Element) (row : Nat) : Prop where
  holds : ∃ e, elements[row]? = some e ∧ matchDegree e target = some .exact
  first : ∀ i e, i < row → elements[i]? = some e → matchDegree e target ≠ some .exact

/-- A row is the first of some elements that comes near a target, to a degree. -/
structure IsFirstNear (target : Element) (elements : List Element) (row : Nat) (degree : MatchDegree) : Prop where
  holds : ∃ e, elements[row]? = some e ∧ matchDegree e target = some degree
  first : ∀ i e, i < row → elements[i]? = some e → matchDegree e target = none

/-- The row to follow, and how closely it agrees: the first exact match, else the first near miss. -/
inductive Matches (target : Element) (elements : List Element) (row : Nat) : MatchDegree → Prop where
  | exact (first : IsFirstExact target elements row) : Matches target elements row .exact
  | near {degree : MatchDegree} (inexact : ∀ e ∈ elements, matchDegree e target ≠ some .exact)
      (first : IsFirstNear target elements row degree) : Matches target elements row degree

variable {target candidate : Element} {rest elements : List Element} {row : Nat} {degree : MatchDegree}

/-- A row that is followed is there. -/
theorem Matches.exists_row (h : Matches target elements row degree) :
  ∃ e, elements[row]? = some e ∧ matchDegree e target = some degree
  := by
  cases h with
  | exact first => exact first.holds
  | near inexact first => exact first.holds

theorem IsFirstExact.cons (h : IsFirstExact target rest row) (hcandidate : matchDegree candidate target ≠ some .exact) :
  IsFirstExact target (candidate :: rest) (row + 1)
  := by
  refine ⟨h.holds, fun i e hi he => ?_⟩
  cases i with
  | zero =>
    cases he
    exact hcandidate
  | succ i => exact h.first i e (Nat.lt_of_succ_lt_succ hi) he

theorem IsFirstNear.cons (h : IsFirstNear target rest row degree) (hcandidate : matchDegree candidate target = none) :
  IsFirstNear target (candidate :: rest) (row + 1) degree
  := by
  refine ⟨h.holds, fun i e hi he => ?_⟩
  cases i with
  | zero =>
    cases he
    exact hcandidate
  | succ i => exact h.first i e (Nat.lt_of_succ_lt_succ hi) he

/-- What is found from a row on, after what came near before. -/
inductive FindsFrom (target : Element) (elements : List Element) (start : Nat) (near : Option (Nat × MatchDegree)) :
    Option (Nat × MatchDegree) → Prop where
  | exact (row : Nat) (first : IsFirstExact target elements row) :
      FindsFrom target elements start near (some (start + row, .exact))
  | near (row : Nat) (degree : MatchDegree) (inexact : ∀ e ∈ elements, matchDegree e target ≠ some .exact)
      (first : IsFirstNear target elements row degree) :
      FindsFrom target elements start near (near <|> some (start + row, degree))
  | before (apart : ∀ e ∈ elements, matchDegree e target = none) :
      FindsFrom target elements start near near

/-- A candidate that does not agree exactly is passed by; what comes near from it on may be the candidate itself. -/
theorem FindsFrom.cons {start : Nat} {near found : Option (Nat × MatchDegree)}
    (hdegree : matchDegree candidate target = some degree) (hinexact : degree ≠ .exact)
    (h : FindsFrom target rest (start + 1) (near <|> some (start, degree)) found) :
  FindsFrom target (candidate :: rest) start near found
  := by
  have hcandidate : matchDegree candidate target ≠ some .exact := by
    rw [hdegree]
    exact fun heq => hinexact (Option.some.inj heq)
  have hfirst : IsFirstNear target (candidate :: rest) 0 degree :=
    ⟨⟨candidate, rfl, hdegree⟩, fun i e hi => absurd hi (Nat.not_lt_zero i)⟩
  cases h with
  | exact row first =>
    rw [Nat.add_right_comm, Nat.add_assoc]
    exact .exact _ (first.cons hcandidate)
  | near row degree' inexact first =>
    have hnear : FindsFrom target (candidate :: rest) start near (near <|> some (start + 0, degree)) :=
      .near 0 degree (List.forall_mem_cons.mpr ⟨hcandidate, inexact⟩) hfirst
    cases near <;> exact hnear
  | before apart =>
    refine .near 0 degree (List.forall_mem_cons.mpr ⟨hcandidate, fun e he => ?_⟩) hfirst
    rw [apart e he]
    nofun

/-- A candidate that is far off is passed by. -/
theorem FindsFrom.cons_none {start : Nat} {near found : Option (Nat × MatchDegree)}
    (hdegree : matchDegree candidate target = none) (h : FindsFrom target rest (start + 1) near found) :
  FindsFrom target (candidate :: rest) start near found
  := by
  have hcandidate : matchDegree candidate target ≠ some .exact := by
    rw [hdegree]
    nofun
  cases h with
  | exact row first =>
    rw [Nat.add_right_comm, Nat.add_assoc]
    exact .exact _ (first.cons hcandidate)
  | near row degree inexact first =>
    rw [Nat.add_right_comm, Nat.add_assoc]
    exact .near _ degree (List.forall_mem_cons.mpr ⟨hcandidate, inexact⟩) (first.cons hdegree)
  | before apart => exact .before (List.forall_mem_cons.mpr ⟨hdegree, apart⟩)

theorem findsFrom (target : Element) (elements : List Element) (start : Nat) (near : Option (Nat × MatchDegree)) :
  FindsFrom target elements start near (findMatchFrom target start near elements)
  := by
  induction elements generalizing start near with
  | nil => exact .before fun e he => absurd he List.not_mem_nil
  | cons candidate rest ih =>
    rw [findMatchFrom]
    cases hdegree : matchDegree candidate target with
    | none => exact (ih (start + 1) near).cons_none hdegree
    | some degree =>
      cases degree with
      | exact =>
        exact .exact 0 ⟨⟨candidate, rfl, hdegree⟩, fun i e hi => absurd hi (Nat.not_lt_zero i)⟩
      | sameExceptLocation => exact (ih (start + 1) _).cons hdegree nofun
      | sameExceptName => exact (ih (start + 1) _).cons hdegree nofun

/-- What is found is what is to be followed; if nothing is found, no element comes near the target. -/
theorem findMatch_cases (elements : List Element) (target : Element) :
  (∃ row degree, findMatch elements target = some (row, degree) ∧ Matches target elements row degree) ∨
    (findMatch elements target = none ∧ ∀ e ∈ elements, matchDegree e target = none)
  := by
  have hfinds := findsFrom target elements 0 none
  rw [← findMatch] at hfinds
  generalize findMatch elements target = found at hfinds
  cases hfinds with
  | exact row first => exact .inl ⟨0 + row, .exact, rfl, .exact (by rw [Nat.zero_add]; exact first)⟩
  | near row degree inexact first =>
    exact .inl ⟨0 + row, degree, rfl, .near inexact (by rw [Nat.zero_add]; exact first)⟩
  | before apart => exact .inr ⟨rfl, apart⟩

theorem matches_of_findMatch (h : findMatch elements target = some (row, degree)) :
  Matches target elements row degree
  := by
  obtain ⟨row', degree', hfound, hmatches⟩ | ⟨hnone, -⟩ := findMatch_cases elements target
  · rw [h] at hfound
    cases hfound
    exact hmatches
  · rw [h] at hnone
    cases hnone

theorem apart_of_findMatch (h : findMatch elements target = none) :
  ∀ e ∈ elements, matchDegree e target = none
  := by
  obtain ⟨row, degree, hfound, -⟩ | ⟨-, hapart⟩ := findMatch_cases elements target
  · rw [h] at hfound
    cases hfound
  · exact hapart

/-- Where an exact match is among the candidates, one is found. -/
theorem exists_findMatch {candidates : List Element} (h : ∃ e ∈ candidates, Equal e target) :
  ∃ row e, findMatch candidates target = some (row, .exact) ∧ candidates[row]? = some e ∧ Equal e target
  := by
  obtain ⟨e, he, hequal⟩ := h
  obtain ⟨row, degree, hfound, hmatches⟩ | ⟨-, hapart⟩ := findMatch_cases candidates target
  · cases hmatches with
    | exact first =>
      obtain ⟨e', he', hexact⟩ := first.holds
      exact ⟨row, e', hfound, he', equal_of_matchDegree hexact⟩
    | near inexact first => exact absurd (matchDegree_of_equal hequal) (inexact e he)
  · have hnone := hapart e he
    rw [matchDegree_of_equal hequal] at hnone
    cases hnone

end CallGraph
