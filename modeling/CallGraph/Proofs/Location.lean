import CallGraph.Location
import Mathlib.Data.List.Basic
import Mathlib.Data.List.Sort

/-!
# The order of places

Places come one after the other as their numbers do, so entries that are sorted by place are in order, and
strictly so if no two of them are at one place.
-/

namespace CallGraph.Location

/-- A line or column as a number, the unknown one first. -/
def rank : Option UInt32 → Nat
  | none => 0
  | some n => n.toNat + 1

theorem rank_inj {a b : Option UInt32} :
  rank a = rank b ↔ a = b
  := by
  cases a <;> cases b <;> simp [rank, UInt32.toNat_inj]

theorem rank_le (n : Option UInt32) :
  rank n ≤ UInt32.size
  := by
  cases n with
  | none => exact Nat.zero_le _
  | some n => exact n.toNat_lt_size

theorem numberBefore_iff {a b : Option UInt32} :
  numberBefore a b = true ↔ rank a < rank b
  := by
  cases a <;> cases b <;> simp [rank, numberBefore, UInt32.lt_iff_toNat_lt]

/-- The number of a place in the order of places. -/
def index (l : Location) : Nat :=
  rank l.line * (UInt32.size + 1) + rank l.column

theorem before_iff {a b : Location} :
  a.before b = true ↔ a.index < b.index
  := by
  have ha := rank_le a.column
  have hb := rank_le b.column
  simp only [before, numberBefore_iff, Bool.or_eq_true, Bool.and_eq_true, beq_iff_eq, ← rank_inj, index]
  unfold UInt32.size at *
  omega

theorem notAfter_iff {a b : Location} :
  a.notAfter b = true ↔ a.index ≤ b.index
  := by
  rw [notAfter, Bool.not_eq_true', ← Bool.not_eq_true, before_iff, Nat.not_lt]

theorem index_inj {a b : Location} :
  a.index = b.index ↔ a = b
  := by
  constructor
  · intro h
    have ha := rank_le a.column
    have hb := rank_le b.column
    have hranks : rank a.line = rank b.line ∧ rank a.column = rank b.column := by
      simp only [index] at h
      unfold UInt32.size at *
      omega
    cases a
    cases b
    simpa [rank_inj] using hranks
  · exact congrArg index

theorem ne_of_before {a b : Location} (h : a.before b = true) :
  a ≠ b
  := by
  rintro rfl
  exact Nat.lt_irrefl _ (before_iff.mp h)

variable {α : Type} (entries : List α) (start : α → Location)

/-- Entries are in order once they are sorted by place. -/
theorem pairwise_mergeSort_notAfter :
  (entries.mergeSort fun a b => (start a).notAfter (start b)).Pairwise
    fun a b => (start a).notAfter (start b) = true
  := by
  apply List.pairwise_mergeSort
  · intro a b c hab hbc
    rw [notAfter_iff] at *
    exact Nat.le_trans hab hbc
  · intro a b
    rw [Bool.or_eq_true, notAfter_iff, notAfter_iff]
    exact Nat.le_total _ _

/-- Entries at different places are strictly in order once they are sorted by place. -/
theorem pairwise_mergeSort_before (h : (entries.map start).Nodup) :
  (entries.mergeSort fun a b => (start a).notAfter (start b)).Pairwise
    fun a b => (start a).before (start b) = true
  := by
  have hdistinct : (entries.mergeSort fun a b => (start a).notAfter (start b)).Pairwise
      fun a b => start a ≠ start b := by
    rw [← List.pairwise_map]
    exact ((List.mergeSort_perm entries _).map start).nodup_iff.mpr h
  apply (pairwise_mergeSort_notAfter entries start).imp₂ _ hdistinct
  intro a b hle hne
  rw [notAfter_iff] at hle
  rw [before_iff]
  exact Nat.lt_of_le_of_ne hle fun heq => hne (index_inj.mp heq)

end CallGraph.Location
