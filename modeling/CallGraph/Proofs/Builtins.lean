import CallGraph.Builtins
import CallGraph.Proofs.Text.Utf8

/-!
# Looking for a name by halving

The tables of builtin names stand in the order of their octets, and in such a table halving finds just the names that
stand in it.  The order is not only enough but needed: where a table without repetitions is out of order, halving
misses one of its names.
-/

namespace CallGraph.Builtins

variable {table : Array String} {name entry : String} {fuel low high : Nat}

/-! ### The order of a table -/

/-- The octets of every name of a table come before those of the next one. -/
def IsSorted (table : Array String) : Prop :=
  table.toList.IsChain fun a b => a.toUTF8.toList < b.toUTF8.toList

instance : Decidable (IsSorted table) :=
  inferInstanceAs (Decidable (List.IsChain _ _))

/-- A table is in order if any of its names comes before any that stands behind it, as texts are compared. -/
theorem isSorted_iff :
  IsSorted table ↔ ∀ (i j : Nat) (a b : String), i < j → table[i]? = some a → table[j]? = some b → a < b
  := by
  simp only [IsSorted, Utf8.octets_lt_octets_iff]
  rw [List.isChain_iff_pairwise, List.pairwise_iff_getElem]
  constructor
  · intro h i j a b hij ha hb
    obtain ⟨hi, rfl⟩ := Array.getElem?_eq_some_iff.mp ha
    obtain ⟨hj, rfl⟩ := Array.getElem?_eq_some_iff.mp hb
    exact h i j hi hj hij
  · intro h i j hi hj hij
    exact h i j _ _ hij (Array.getElem?_eq_getElem hi) (Array.getElem?_eq_getElem hj)

theorem isSorted_ignoredTable :
  IsSorted ignoredTable
  := by decide +kernel

theorem isSorted_otherTable :
  IsSorted otherTable
  := by decide +kernel

/-! ### Halving -/

/-- What is found stands between the two positions, be the table in order or not. -/
theorem exists_of_searchBetween (h : searchBetween table name fuel low high = true) :
  ∃ i, low ≤ i ∧ i < high ∧ table[i]? = some name
  := by
  fun_induction searchBetween table name fuel low high with
  | case1 => cases h
  | case2 => cases h
  | case3 low high fuel hlt middle hname => exact ⟨middle, by omega, by omega, hname⟩
  | case4 low high fuel hlt middle entry hentry hne hbefore ih =>
    obtain ⟨i, hlow, hi⟩ := ih h
    exact ⟨i, by omega, hi⟩
  | case5 low high fuel hlt middle entry hentry hne hbefore ih =>
    obtain ⟨i, hlow, hi, hname⟩ := ih h
    exact ⟨i, hlow, by omega, hname⟩
  | case6 => cases h

theorem mem_of_search (h : search table name = true) :
  name ∈ table.toList
  := by
  obtain ⟨i, _, _, hname⟩ := exists_of_searchBetween h
  rw [← Array.getElem?_toList] at hname
  exact List.mem_of_getElem? hname

namespace IsSorted

variable {i j : Nat} (h : IsSorted table)

include h

/-- A name behind an entry stands behind it. -/
theorem index_lt (hentry : table[i]? = some entry) (hname : table[j]? = some name) (hlt : entry < name) :
  i < j
  := by
  rcases Nat.lt_trichotomy i j with hij | rfl | hij
  · exact hij
  · cases hentry.symm.trans hname
    exact absurd hlt (String.lt_irrefl _)
  · exact absurd (isSorted_iff.mp h j i _ _ hij hname hentry) (String.lt_asymm hlt)

/-- In a table in order every name between the two positions is found. -/
theorem searchBetween_of_getElem? (hfuel : high - low < fuel) (hsize : high ≤ table.size) (hlow : low ≤ i)
    (hhigh : i < high) (hname : table[i]? = some name) :
  searchBetween table name fuel low high = true
  := by
  fun_induction searchBetween table name fuel low high with
  | case1 => cases Nat.not_lt_zero _ hfuel
  | case2 low high fuel hlt middle hnone =>
    have hmiddle : table.size ≤ middle := Array.getElem?_eq_none_iff.mp hnone
    omega
  | case3 => rfl
  | case4 low high fuel hlt middle entry hentry hne hbefore ih =>
    have hmiddle : middle < i := h.index_lt hentry hname hbefore
    exact ih (by omega) hsize hmiddle hhigh
  | case5 low high fuel hlt middle entry hentry hne hbefore ih =>
    have hafter : name < entry := lt_of_le_of_ne (not_lt.mp hbefore) (Ne.symm hne)
    have hmiddle : i < middle := h.index_lt hname hentry hafter
    exact ih (by omega) (by omega) hlow hmiddle
  | case6 low high fuel hlt => cases hlt (Nat.lt_of_le_of_lt hlow hhigh)

theorem search_of_getElem? (hname : table[i]? = some name) :
  search table name = true
  := by
  have hi : i < table.size := (Array.getElem?_eq_some_iff.mp hname).1
  exact h.searchBetween_of_getElem? (Nat.lt_succ_self _) (Nat.le_refl _) (Nat.zero_le i) hi hname

/-- The search finds just the names of the table. -/
theorem search_iff :
  search table name = true ↔ name ∈ table.toList
  := by
  constructor
  · exact mem_of_search
  · intro hmem
    obtain ⟨i, hname⟩ := List.mem_iff_getElem?.mp hmem
    rw [Array.getElem?_toList] at hname
    exact h.search_of_getElem? hname

end IsSorted

/-! ### Tables out of order -/

/-- In a table without repetitions a name has one position. -/
theorem index_unique {i j : Nat} (hdistinct : table.toList.Nodup) (hi : table[i]? = some name)
    (hj : table[j]? = some name) :
  i = j
  := by
  have hsize : i < table.toList.length := (Array.getElem?_eq_some_iff.mp hi).1
  rw [← Array.getElem?_toList] at hi hj
  exact (List.getElem?_inj hsize hdistinct).mp (hi.trans hj.symm)

/-- A search that finds a name stops at it or goes on in the half in which it stands, so the name and the entry in
the middle are in order. -/
theorem half_of_searchBetween {i : Nat} (hdistinct : table.toList.Nodup) (hname : table[i]? = some name)
    (h : searchBetween table name (fuel + 1) low high = true) :
  ∃ entry, table[(low + high) / 2]? = some entry ∧
    (i < (low + high) / 2 ∧ name < entry ∧ searchBetween table name fuel low ((low + high) / 2) = true ∨
      i = (low + high) / 2 ∧ name = entry ∨
      (low + high) / 2 < i ∧ entry < name ∧ searchBetween table name fuel ((low + high) / 2 + 1) high = true)
  := by
  have hstands {low high : Nat} (h : searchBetween table name fuel low high = true) : low ≤ i ∧ i < high := by
    obtain ⟨j, hlow, hhigh, hj⟩ := exists_of_searchBetween h
    rw [index_unique hdistinct hname hj]
    exact ⟨hlow, hhigh⟩
  rw [searchBetween] at h
  split at h
  case isFalse => cases h
  case isTrue =>
    dsimp only at h
    split at h
    case h_1 => cases h
    case h_2 entry hentry =>
      refine ⟨entry, hentry, ?_⟩
      split at h
      case isTrue heq =>
        subst heq
        exact .inr (.inl ⟨index_unique hdistinct hname hentry, rfl⟩)
      case isFalse hne =>
        split at h
        case isTrue hbefore => exact .inr (.inr ⟨(hstands h).1, hbefore, h⟩)
        case isFalse hbefore =>
          have hafter : name < entry := lt_of_le_of_ne (not_lt.mp hbefore) (Ne.symm hne)
          exact .inl ⟨(hstands h).2, hafter, h⟩

/-- Names between two positions are in order if halving finds them all. -/
theorem lt_of_searchBetween (hdistinct : table.toList.Nodup)
    (hfound : ∀ (k : Nat) (c : String), low ≤ k → k < high → table[k]? = some c →
      searchBetween table c fuel low high = true) {i j : Nat} {a b : String} (hlow : low ≤ i) (hij : i < j)
    (hhigh : j < high) (ha : table[i]? = some a) (hb : table[j]? = some b) :
  a < b
  := by
  induction fuel generalizing low high i j a b with
  | zero => cases hfound i a hlow (Nat.lt_trans hij hhigh) ha
  | succ fuel ih =>
    have hhalf (k : Nat) (c : String) (hk : low ≤ k) (hk' : k < high) (hc : table[k]? = some c) :=
      half_of_searchBetween hdistinct hc (hfound k c hk hk' hc)
    obtain ⟨entry, hentry, hi⟩ := hhalf i a hlow (by omega) ha
    obtain ⟨entry', hentry', hj⟩ := hhalf j b (by omega) hhigh hb
    cases hentry.symm.trans hentry'
    -- names on both sides of the middle are in order because of its entry, names on one side by induction
    rcases hi with ⟨hi, haentry, _⟩ | ⟨hi, rfl⟩ | ⟨hi, _, _⟩
    · rcases hj with ⟨hj, _, _⟩ | ⟨_, rfl⟩ | ⟨_, hentryb, _⟩
      · refine ih (fun k c hk hk' hc => ?_) hlow hij hj ha hb
        obtain ⟨_, _, ⟨_, _, hleft⟩ | ⟨hmiddle, _⟩ | ⟨hright, _⟩⟩ := hhalf k c hk (by omega) hc
        · exact hleft
        · omega
        · omega
      · exact haentry
      · exact lt_trans haentry hentryb
    · rcases hj with ⟨hj, _, _⟩ | ⟨hj, _⟩ | ⟨_, hentryb, _⟩
      · omega
      · omega
      · exact hentryb
    · refine ih (fun k c hk hk' hc => ?_) hi hij hhigh ha hb
      obtain ⟨_, _, ⟨hleft, _⟩ | ⟨hmiddle, _⟩ | ⟨_, _, hright⟩⟩ := hhalf k c (by omega) hk' hc
      · omega
      · omega
      · exact hright

/-- Just in a table in order halving finds every name. -/
theorem isSorted_iff_search (hdistinct : table.toList.Nodup) :
  IsSorted table ↔ ∀ name ∈ table.toList, search table name = true
  := by
  constructor
  · intro h name hname
    exact h.search_iff.mpr hname
  · intro h
    rw [isSorted_iff]
    intro i j a b hij ha hb
    have hj : j < table.size := (Array.getElem?_eq_some_iff.mp hb).1
    have hfound (k : Nat) (c : String) (_ : 0 ≤ k) (_ : k < table.size) (hc : table[k]? = some c) :
        searchBetween table c (table.size + 1) 0 table.size = true := by
      rw [← Array.getElem?_toList] at hc
      exact h c (List.mem_of_getElem? hc)
    exact lt_of_searchBetween hdistinct hfound (Nat.zero_le i) hij hj ha hb

-- the last name is before the one in the middle, so it is looked for in front of it
example : search #["abs", "all", "any", "aiter"] "aiter" = false := by decide

/-! ### The tests for builtin names -/

/-- Never shown are the names of one table, in one module. -/
theorem isIgnored_iff {module : String} :
  isIgnored module name = true ↔ module = "builtins" ∧ name ∈ ignoredTable.toList
  := by
  rw [isIgnored, Bool.and_eq_true, beq_iff_eq, isSorted_ignoredTable.search_iff, moduleName]

/-- Defined without an import are the names of both tables. -/
theorem isBuiltin_iff :
  isBuiltin name = true ↔ name ∈ ignoredTable.toList ∨ name ∈ otherTable.toList
  := by
  have hmodule : moduleName = "builtins" := rfl
  rw [isBuiltin, Bool.or_eq_true, isIgnored_iff, and_iff_right hmodule, isSorted_otherTable.search_iff]

/-- Both tests answer as if they went through the tables from end to end. -/
theorem passes_iff_listed (module name : String) :
  (isIgnored module name = true ↔ module = "builtins" ∧ name ∈ ignoredTable.toList) ∧
    (isBuiltin name = true ↔ name ∈ ignoredTable.toList ∨ name ∈ otherTable.toList)
  :=
  ⟨isIgnored_iff, isBuiltin_iff⟩

end CallGraph.Builtins
