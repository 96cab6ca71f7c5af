import CallGraph.Proofs.Path
import CallGraph.SearchScope
import Mathlib.Data.List.Pairwise

/-!
# What search scopes hold

A scope holds a file when it holds an equal one, and it takes no file in that it holds already.
-/

namespace CallGraph.SearchScope

/-- No two files of the scope are equal. -/
def IsDistinct (s : SearchScope) : Prop :=
  s.files.Pairwise fun p q => (p == q) = false

variable {s : SearchScope} {p q : Path}

theorem contains_iff :
  s.contains p = true ↔ ∃ q ∈ s.files, (q == p) = true
  :=
  List.any_eq_true

theorem contains_congr (h : (p == q) = true) :
  s.contains p = s.contains q
  := by
  rw [Bool.eq_iff_iff, contains_iff, contains_iff]
  constructor
  · rintro ⟨r, hr, hrp⟩
    exact ⟨r, hr, BEq.trans hrp h⟩
  · rintro ⟨r, hr, hrq⟩
    exact ⟨r, hr, BEq.trans hrq (BEq.symm h)⟩

theorem insert_of_contains (h : s.contains p = true) :
  s.insert p = s
  :=
  if_pos h

theorem contains_insert (h : s.contains p = true ∨ (q == p) = true) :
  (s.insert q).contains p = true
  := by
  unfold insert
  split
  case isTrue hq =>
    rcases h with h | h
    · exact h
    · rw [← contains_congr h]
      exact hq
  case isFalse =>
    rw [contains_iff]
    rcases h with h | h
    · obtain ⟨r, hr, hrp⟩ := contains_iff.mp h
      exact ⟨r, List.mem_cons_of_mem _ hr, hrp⟩
    · exact ⟨q, List.mem_cons_self, h⟩

/-- Equal files of a scope are one file. -/
theorem IsDistinct.eq_of_beq (h : s.IsDistinct) (hp : p ∈ s.files) (hq : q ∈ s.files) (hequal : (p == q) = true) :
  p = q
  := by
  by_contra hne
  have : Std.Symm fun p q : Path => (p == q) = false := ⟨fun _ _ hpq => BEq.comm.trans hpq⟩
  rw [List.Pairwise.forall h hp hq hne] at hequal
  cases hequal

theorem IsDistinct.insert (h : s.IsDistinct) (p : Path) :
  (s.insert p).IsDistinct
  := by
  unfold SearchScope.insert
  split
  case isTrue => exact h
  case isFalse hp =>
    refine List.pairwise_cons.mpr ⟨fun q hq => ?_, h⟩
    rw [← Bool.not_eq_true]
    exact fun hequal => hp (contains_iff.mpr ⟨q, hq, BEq.symm hequal⟩)

theorem IsDistinct.insertAll (h : s.IsDistinct) (ps : List Path) :
  (s.insertAll ps).IsDistinct
  := by
  induction ps generalizing s with
  | nil => exact h
  | cons p ps ih => exact ih (h.insert p)

theorem insertAll_append (s : SearchScope) (ps qs : List Path) :
  s.insertAll (ps ++ qs) = (s.insertAll ps).insertAll qs
  :=
  List.foldl_append

theorem contains_insertAll (h : s.contains p = true) (ps : List Path) :
  (s.insertAll ps).contains p = true
  := by
  induction ps generalizing s with
  | nil => exact h
  | cons q ps ih => exact ih (contains_insert (.inl h))

theorem contains_insertAll_of_mem {ps : List Path} (h : p ∈ ps) :
  (s.insertAll ps).contains p = true
  := by
  induction ps generalizing s with
  | nil => cases h
  | cons q ps ih =>
    rcases List.mem_cons.mp h with rfl | h
    · exact contains_insertAll (contains_insert (.inr (beq_self_eq_true p))) ps
    · exact ih h

/-- A file of the scope was there before or is one of the new ones. -/
theorem mem_insertAll {ps : List Path} (h : q ∈ (s.insertAll ps).files) :
  q ∈ s.files ∨ q ∈ ps
  := by
  induction ps generalizing s with
  | nil => exact .inl h
  | cons p ps ih =>
    have hinsert : (s.insert p).files ⊆ p :: s.files := by
      unfold insert
      split
      · apply List.subset_cons_self
      · apply List.Subset.refl
    rcases ih h with h | h
    · rcases List.mem_cons.mp (hinsert h) with rfl | h
      · exact .inr List.mem_cons_self
      · exact .inl h
    · exact .inr (List.mem_cons_of_mem p h)

/-- Files that are held already do not widen the scope. -/
theorem insertAll_of_contains {ps : List Path} (h : ∀ p ∈ ps, s.contains p = true) :
  s.insertAll ps = s
  := by
  induction ps with
  | nil => rfl
  | cons p ps ih =>
    rw [List.forall_mem_cons] at h
    change (s.insert p).insertAll ps = s
    rw [insert_of_contains h.1, ih h.2]

theorem mem_snapshot :
  p ∈ s.snapshot ↔ p ∈ s.files
  :=
  (List.mergeSort_perm _ _).mem_iff

end CallGraph.SearchScope
