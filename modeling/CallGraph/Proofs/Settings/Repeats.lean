import CallGraph.Settings.Project
import Mathlib.Data.List.Basic

/-!
# Lists without repeats

Lists are merged by appending what is missing, and the first of equal entries stays.  Appending what is there already
changes nothing, and neither does taking out repeats again.  The first entry of a list that something comes of, and the
last entry equal to a key, are those of the list that it grows into when it is merged with itself.
-/

namespace CallGraph

open Project (appendMissing)

variable {α : Type} [BEq α]

/-- A list no entry of which equals one before. -/
def IsDistinct (items : List α) : Prop :=
  items.Pairwise fun a b => (b == a) = false

theorem appendMissing_cons (kept : List α) (a : α) (items : List α) :
  appendMissing kept (a :: items) = appendMissing (if kept.contains a then kept else kept ++ [a]) items
  :=
  rfl

/-- To take out repeats is to append everything that is missing. -/
theorem distinct_eq (items : List α) :
  distinct items = appendMissing [] items
  :=
  rfl

theorem distinct_append (items more : List α) :
  distinct (items ++ more) = appendMissing (distinct items) more
  :=
  List.foldl_append

theorem contains_eq_false_iff {items : List α} {a : α} :
  items.contains a = false ↔ ∀ b ∈ items, (a == b) = false
  := by
  rw [List.contains_eq_any_beq, List.any_eq_false]
  simp only [Bool.not_eq_true]

theorem IsDistinct.appendMissing {kept : List α} (h : IsDistinct kept) (items : List α) :
  IsDistinct (appendMissing kept items)
  := by
  induction items generalizing kept with
  | nil => exact h
  | cons a items ih =>
    rw [appendMissing_cons]
    split
    case isTrue => exact ih h
    case isFalse hnot =>
      apply ih
      rw [Bool.not_eq_true, contains_eq_false_iff] at hnot
      refine List.pairwise_append.mpr ⟨h, List.pairwise_singleton _ _, ?_⟩
      intro b hb _ ha
      rw [List.mem_singleton.mp ha]
      exact hnot b hb

theorem isDistinct_distinct (items : List α) :
  IsDistinct (distinct items)
  :=
  IsDistinct.appendMissing List.Pairwise.nil items

/-- Entries that equal none before are all appended. -/
theorem IsDistinct.appendMissing_eq {kept items : List α} (h : IsDistinct (kept ++ items)) :
  Project.appendMissing kept items = kept ++ items
  := by
  induction items generalizing kept with
  | nil => exact (List.append_nil kept).symm
  | cons a items ih =>
    have hnot : kept.contains a = false :=
      contains_eq_false_iff.mpr fun b hb => (List.pairwise_append.mp h).2.2 b hb a List.mem_cons_self
    rw [List.append_cons] at h
    rw [appendMissing_cons, hnot, if_neg Bool.false_ne_true, ih h, List.append_assoc]
    rfl

theorem IsDistinct.distinct_eq {items : List α} (h : IsDistinct items) :
  distinct items = items
  := by
  have hempty : IsDistinct ([] ++ items) := h
  exact hempty.appendMissing_eq

/-- Without its repeats a list has none. -/
theorem distinct_distinct (items : List α) :
  distinct (distinct items) = distinct items
  :=
  (isDistinct_distinct items).distinct_eq

/-- What is there already is not appended. -/
theorem appendMissing_of_contains {kept items : List α} (h : ∀ a ∈ items, kept.contains a = true) :
  appendMissing kept items = kept
  := by
  induction items with
  | nil => rfl
  | cons a items ih =>
    obtain ⟨ha, hitems⟩ := List.forall_mem_cons.mp h
    rw [appendMissing_cons, if_pos ha, ih hitems]

/-- Only entries of the list itself are appended. -/
theorem exists_appendMissing (kept items : List α) :
  ∃ more, appendMissing kept items = kept ++ more ∧ more ⊆ items
  := by
  induction items generalizing kept with
  | nil => exact ⟨[], (List.append_nil kept).symm, List.nil_subset _⟩
  | cons a items ih =>
    rw [appendMissing_cons]
    split
    case isTrue =>
      obtain ⟨more, hmore, hsubset⟩ := ih kept
      exact ⟨more, hmore, List.subset_cons_of_subset _ hsubset⟩
    case isFalse =>
      obtain ⟨more, hmore, hsubset⟩ := ih (kept ++ [a])
      exact ⟨a :: more, hmore.trans (List.append_cons kept a more).symm, List.cons_subset_cons a hsubset⟩

/-- All entries are there in the end. -/
theorem contains_appendMissing [ReflBEq α] {kept items : List α} {a : α}
    (h : kept.contains a = true ∨ a ∈ items) :
  (appendMissing kept items).contains a = true
  := by
  induction items generalizing kept with
  | nil => exact h.resolve_right List.not_mem_nil
  | cons b items ih =>
    rw [appendMissing_cons]
    have hmono (hkept : kept.contains a = true) (more : List α) : (kept ++ more).contains a = true := by
      rw [List.contains_eq_any_beq, List.any_append, ← List.contains_eq_any_beq, hkept, Bool.true_or]
    apply ih
    rcases h with hkept | hmem
    · left
      split
      · exact hkept
      · exact hmono hkept [b]
    · rcases List.mem_cons.mp hmem with rfl | hmem
      · left
        split
        case isTrue hthere => exact hthere
        case isFalse =>
          rw [List.contains_eq_any_beq, List.any_append]
          simp
      · exact .inr hmem

theorem contains_distinct [ReflBEq α] {items : List α} {a : α} (h : a ∈ items) :
  (distinct items).contains a = true
  :=
  contains_appendMissing (.inr h)

/-- One more entry is there, and whatever was there before. -/
theorem contains_appendMissing_singleton [EquivBEq α] (kept : List α) (a key : α) :
  (appendMissing kept [a]).contains key = (kept.contains key || a == key)
  := by
  rw [appendMissing_cons]
  split
  case isTrue hthere =>
    cases hkey : a == key with
    | false => exact (Bool.or_false _).symm
    | true =>
      rw [Bool.or_true, ← List.contains_congr hkey]
      exact hthere
  case isFalse =>
    rw [BEq.comm, List.contains_eq_any_beq, List.contains_eq_any_beq]
    exact List.any_append.trans (congrArg _ (Bool.or_false _))

/-- A condition that equal entries satisfy together may be imposed before or after. -/
theorem filter_appendMissing {P : α → Bool} (hP : ∀ a b, (a == b) = true → P a = P b) (kept items : List α) :
  (appendMissing kept items).filter P = appendMissing (kept.filter P) (items.filter P)
  := by
  induction items generalizing kept with
  | nil => rfl
  | cons a items ih =>
    rw [appendMissing_cons, ih]
    cases ha : P a with
    | false =>
      rw [List.filter_cons_of_neg (Bool.eq_false_iff.mp ha)]
      split
      case isTrue => rfl
      case isFalse => rw [List.filter_append, List.filter_cons_of_neg (Bool.eq_false_iff.mp ha), List.filter_nil,
        List.append_nil]
    | true =>
      have hcontains : (kept.filter P).contains a = kept.contains a := by
        rw [Bool.eq_iff_iff, List.contains_iff_exists_mem_beq, List.contains_iff_exists_mem_beq]
        constructor
        · rintro ⟨b, hb, hequal⟩
          exact ⟨b, (List.mem_filter.mp hb).1, hequal⟩
        · rintro ⟨b, hb, hequal⟩
          exact ⟨b, List.mem_filter.mpr ⟨hb, hP a b hequal ▸ ha⟩, hequal⟩
      rw [List.filter_cons_of_pos ha, appendMissing_cons, hcontains]
      split
      case isTrue => rfl
      case isFalse => rw [List.filter_append, List.filter_cons_of_pos ha, List.filter_nil]

/-! ### Merging again -/

/-- Entries of a list do not come behind it. -/
theorem distinct_append_of_subset [ReflBEq α] {items more : List α} (h : more ⊆ items) :
  distinct (distinct items ++ more) = distinct items
  := by
  rw [distinct_append, distinct_distinct]
  exact appendMissing_of_contains fun a ha => contains_distinct (h ha)

/-- A list that was merged with some entries and had others put behind it becomes, when this is done again, what it
stays from then on. -/
theorem exists_distinct_again [ReflBEq α] (items more behind : List α) :
  ∃ extra, extra ⊆ behind ∧
    distinct (distinct (distinct (items ++ more) ++ behind) ++ more) = distinct (items ++ more) ++ extra ∧
    distinct (distinct (distinct (items ++ more) ++ extra ++ behind) ++ more) = distinct (items ++ more) ++ extra
  := by
  obtain ⟨extra, hextra, hsubset⟩ := exists_appendMissing (distinct (items ++ more)) behind
  have hbehind : distinct (distinct (items ++ more) ++ behind) = distinct (items ++ more) ++ extra := by
    rw [distinct_append, distinct_distinct, hextra]
  have hcontains {kept : List α} : ∀ a ∈ more, (appendMissing (distinct (items ++ more)) kept).contains a = true :=
    fun a ha => contains_appendMissing (.inl (contains_distinct (List.mem_append_right _ ha)))
  refine ⟨extra, hsubset, ?_, ?_⟩
  · rw [hbehind, distinct_append, ← hextra, (isDistinct_distinct _).appendMissing behind |>.distinct_eq,
      appendMissing_of_contains hcontains]
  · have hagain : distinct (distinct (items ++ more) ++ extra ++ behind) = distinct (items ++ more) ++ extra := by
      rw [distinct_append, ← hextra, (isDistinct_distinct _).appendMissing behind |>.distinct_eq]
      exact appendMissing_of_contains fun a ha => contains_appendMissing (.inr ha)
    rw [hagain, distinct_append, ← hextra, (isDistinct_distinct _).appendMissing behind |>.distinct_eq,
      appendMissing_of_contains hcontains]

/-! ### First and last entries -/

/-- The first entry of which something comes, where the same comes of equal entries or nothing of both, is among those
that stay. -/
theorem findSome?_appendMissing {β : Type} {f : α → Option β}
    (hf : ∀ a b, (a == b) = true → (f a).isSome = (f b).isSome) (kept items : List α) :
  (appendMissing kept items).findSome? f = (kept ++ items).findSome? f
  := by
  induction items generalizing kept with
  | nil => rw [List.append_nil]; rfl
  | cons a items ih =>
    rw [appendMissing_cons, ih]
    split
    case isFalse => rw [List.append_assoc, List.singleton_append]
    case isTrue hthere =>
      obtain ⟨b, hb, hequal⟩ := List.contains_iff_exists_mem_beq.mp hthere
      rw [List.findSome?_append, List.findSome?_append, List.findSome?_cons]
      cases hkept : kept.findSome? f with
      | some found => rfl
      | none =>
        have hnone : f a = none := by
          rw [← Option.not_isSome_iff_eq_none, hf a b hequal, List.findSome?_eq_none_iff.mp hkept b hb]
          simp
        rw [hnone]

/-- Lists in which the same entry comes last among those that are equal to a key and satisfy a condition, for all keys
and conditions. -/
def SameLast (items items' : List α) : Prop :=
  ∀ (key : α) (P : α → Bool), items.reverse.find? (fun a => a == key && P a) =
    items'.reverse.find? fun a => a == key && P a

/-- Entries of a list in which the same ones come last are entries of the other. -/
theorem SameLast.subset [ReflBEq α] {items items' : List α} (h : SameLast items items') :
  items' ⊆ items
  := by
  classical
  intro a ha
  have hlast := h a fun b => decide (b = a)
  have hfound : (items'.reverse.find? fun b => b == a && decide (b = a)).isSome = true :=
    List.find?_isSome.mpr ⟨a, List.mem_reverse.mpr ha, by simp⟩
  rw [← hlast] at hfound
  obtain ⟨b, hb⟩ := Option.isSome_iff_exists.mp hfound
  have hequal := List.find?_some hb
  rw [Bool.and_eq_true, decide_eq_true_eq] at hequal
  exact hequal.2 ▸ List.mem_reverse.mp (List.mem_of_find?_eq_some hb)

/-- What stands again further behind does not come last. -/
theorem sameLast_of_subset {items extra behind : List α} (h : extra ⊆ behind) :
  SameLast (items ++ behind) (items ++ extra ++ behind)
  := by
  intro key P
  rw [List.reverse_append, List.reverse_append, List.reverse_append, List.find?_append, List.find?_append,
    List.find?_append]
  cases hbehind : behind.reverse.find? fun a => a == key && P a with
  | some a => rfl
  | none =>
    have hextra : extra.reverse.find? (fun a => a == key && P a) = none := by
      rw [List.find?_eq_none] at hbehind ⊢
      exact fun a ha => hbehind a (List.mem_reverse.mpr (h (List.mem_reverse.mp ha)))
    rw [hextra]
    rfl

end CallGraph
