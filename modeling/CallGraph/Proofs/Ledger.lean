import CallGraph.Ledger
import Mathlib.Data.List.Basic

/-!
# The entries of a ledger

What insertion, erasure and extension do to the value of a key, to the keys and to their number.  Keys are
compared by `==`, which is an equivalence; the ledger keeps the spelling of a key in which it came in.
`Ledger.Distinct` says that no two entries have equal keys; every operation keeps it.
-/

namespace CallGraph

namespace Ledger

variable {κ ν : Type}

/-- The number of entries is the number of keys. -/
theorem size_eq_length_keys (m : Ledger κ ν) :
  m.size = m.keys.length
  := by
  simp [size, keys]

variable [BEq κ]

/-- No two entries have equal keys. -/
def Distinct (m : Ledger κ ν) : Prop :=
  m.keys.Pairwise fun a b => (a == b) = false

/-- The empty ledger has no two entries. -/
theorem distinct_empty :
  ({} : Ledger κ ν).Distinct
  := List.Pairwise.nil

/-- A key has an entry exactly when it has a value. -/
theorem contains_eq_isSome (m : Ledger κ ν) (key : κ) :
  m.contains key = (m.find? key).isSome
  := by
  rw [contains, find?, Option.isSome_map, List.isSome_find?]

/-- A key has an entry exactly when it equals one of the keys. -/
theorem contains_iff (m : Ledger κ ν) (key : κ) :
  m.contains key = true ↔ ∃ k ∈ m.keys, (k == key) = true
  := by
  simp [contains, keys]

/-- A key without an entry has no value. -/
theorem find?_eq_none_iff (m : Ledger κ ν) (key : κ) :
  m.find? key = none ↔ m.contains key = false
  := by
  rw [contains_eq_isSome]
  cases m.find? key with
  | none => simp
  | some v => simp

/-- An entry's key keeps its place among the keys. -/
theorem keys_insert_of_contains (m : Ledger κ ν) {key : κ} (value : ν) (h : m.contains key = true) :
  (m.insert key value).keys = m.keys
  := by
  simp only [insert, h, if_true, keys, List.map_map]
  apply List.map_congr_left
  intro e _
  by_cases he : (e.1 == key) = true
  · simp [he]
  · simp [he]

/-- A new key comes behind all others. -/
theorem keys_insert_of_not_contains (m : Ledger κ ν) {key : κ} (value : ν) (h : m.contains key = false) :
  (m.insert key value).keys = m.keys ++ [key]
  := by
  simp [insert, h, keys]

/-- The keys left by an erasure are those that differ from the key. -/
theorem keys_erase (m : Ledger κ ν) (key : κ) :
  (m.erase key).keys = m.keys.filter fun k => !(k == key)
  := by
  simp only [erase, keys, List.filter_map]
  rfl

/-- A key that has no entry gains one. -/
theorem size_insert_of_not_contains (m : Ledger κ ν) {key : κ} (value : ν) (h : m.contains key = false) :
  (m.insert key value).size = m.size + 1
  := by
  rw [size_eq_length_keys, keys_insert_of_not_contains m value h, size_eq_length_keys]
  simp

/-- A value that is found is that of an entry whose key equals the one asked for. -/
theorem exists_mem_of_find? {m : Ledger κ ν} {key : κ} {value : ν} (h : m.find? key = some value) :
  ∃ e ∈ m.entries, (e.1 == key) = true ∧ e.2 = value
  := by
  obtain ⟨e, he, hvalue⟩ := Option.map_eq_some_iff.mp h
  have hkey := List.find?_some he
  exact ⟨e, List.mem_of_find?_eq_some he, hkey, hvalue⟩

theorem mem_values_of_find? {m : Ledger κ ν} {key : κ} {value : ν} (h : m.find? key = some value) :
  value ∈ m.values
  := by
  obtain ⟨e, he, -, rfl⟩ := exists_mem_of_find? h
  exact List.mem_map_of_mem he

/-- An erasure leaves only entries that were there. -/
theorem mem_of_mem_erase {m : Ledger κ ν} {key : κ} {e : κ × ν} (h : e ∈ (m.erase key).entries) :
  e ∈ m.entries
  :=
  (List.mem_filter.mp h).1

/-- Erasures leave only entries that were there. -/
theorem mem_of_mem_foldl_erase {m : Ledger κ ν} {keys : List κ} {e : κ × ν}
    (h : e ∈ (keys.foldl erase m).entries) :
  e ∈ m.entries
  := by
  induction keys generalizing m with
  | nil => apply h
  | cons key keys ih => apply mem_of_mem_erase (ih h)

/-- Erasing keeps the keys distinct. -/
theorem Distinct.erase {m : Ledger κ ν} (h : m.Distinct) (key : κ) :
  (m.erase key).Distinct
  := by
  rw [Distinct, keys_erase]
  apply List.Pairwise.filter _ h

section Equiv

variable [EquivBEq κ]

/-- Equal keys have the same value. -/
theorem find?_congr (m : Ledger κ ν) {key k : κ} (h : (key == k) = true) :
  m.find? key = m.find? k
  := by
  simp only [find?, BEq.congr_right h]

/-- The value of an entry is found by its key when no other entry has that key. -/
theorem Distinct.find?_of_mem {m : Ledger κ ν} (h : m.Distinct) {e : κ × ν} (he : e ∈ m.entries) :
  m.find? e.1 = some e.2
  := by
  obtain ⟨entries⟩ := m
  simp only [Distinct, keys, List.pairwise_map] at h
  simp only [find?]
  induction entries with
  | nil => cases he
  | cons d rest ih =>
      obtain ⟨hhead, htail⟩ := List.pairwise_cons.mp h
      rcases List.mem_cons.mp he with rfl | he
      · simp
      · rw [List.find?_cons_of_neg (by simp [hhead e he])]
        apply ih he htail

/-- Giving the entries of `key` another value changes what is found for the keys equal to it. -/
theorem find?_map_replace (entries : List (κ × ν)) (key k : κ) (value : ν) :
  ((entries.map fun e => if e.1 == key then (e.1, value) else e).find? fun e => e.1 == k).map (·.2)
    = if key == k then (entries.find? fun e => e.1 == k).map fun _ => value
      else (entries.find? fun e => e.1 == k).map (·.2)
  := by
  induction entries with
  | nil => simp
  | cons e rest ih =>
      by_cases hkey : (e.1 == key) = true
      · have hcongr : (e.1 == k) = (key == k) := BEq.congr_left hkey
        by_cases hk : (key == k) = true
        · simp [hkey, hcongr, hk]
        · simp only [hk, if_false, Bool.false_eq_true] at ih
          simpa [hkey, hcongr, hk, -List.find?_map] using ih
      · by_cases hk : (e.1 == k) = true
        · have hne : (key == k) = false := by
            rw [← BEq.congr_right hk, BEq.comm]
            simpa using hkey
          simp [hkey, hk, hne]
        · simpa [hkey, hk, -List.find?_map] using ih

/-- A key that has been given a value has it, and all other keys keep theirs. -/
theorem find?_insert (m : Ledger κ ν) (key k : κ) (value : ν) :
  (m.insert key value).find? k = if key == k then some value else m.find? k
  := by
  by_cases h : m.contains key = true
  · simp only [insert, h, if_true, find?, find?_map_replace]
    by_cases hk : (key == k) = true
    · have hfound : (m.entries.find? fun e => e.1 == k).isSome := by
        rw [List.isSome_find?]
        simpa only [contains, BEq.congr_right hk] using h
      obtain ⟨e, he⟩ := Option.isSome_iff_exists.mp hfound
      simp [hk, he]
    · simp [hk]
  · have hnone : ∀ e ∈ m.entries, (e.1 == key) = false := by
      simpa [contains] using h
    simp only [insert, h, if_false, find?, List.find?_append, Bool.false_eq_true]
    by_cases hk : (key == k) = true
    · have hlost : (m.entries.find? fun e => e.1 == k) = none := by
        apply List.find?_eq_none.mpr
        intro e he
        rw [← BEq.congr_right hk, hnone e he]
        simp
      simp [hlost, hk]
    · simp [hk]

/-- An erased key has no value, and all other keys keep theirs. -/
theorem find?_erase (m : Ledger κ ν) (key k : κ) :
  (m.erase key).find? k = if key == k then none else m.find? k
  := by
  simp only [erase, find?, List.find?_filter]
  by_cases hk : (key == k) = true
  · have hnone : (m.entries.find? fun a => !(a.1 == key) && (a.1 == k)) = none := by
      apply List.find?_eq_none.mpr
      intro x _
      rw [BEq.congr_right hk]
      simp
    simp [hnone, hk]
  · simp only [hk, if_false, Bool.false_eq_true]
    congr 2
    funext x
    by_cases hx : (x.1 == k) = true
    · have hxk : (x.1 == key) = false := by
        apply Bool.eq_false_iff.mpr
        intro hxk
        apply hk
        apply BEq.trans (BEq.symm hxk) hx
      simp [hx, hxk]
    · simp [hx]

/-- An entry after an insertion was there before, or its key equals the one inserted. -/
theorem mem_insert {m : Ledger κ ν} {key : κ} {value : ν} {e : κ × ν}
    (h : e ∈ (m.insert key value).entries) :
  e ∈ m.entries ∨ (key == e.1) = true ∧ e.2 = value
  := by
  rw [insert] at h
  split at h
  case isTrue =>
    obtain ⟨d, hd, rfl⟩ := List.mem_map.mp h
    split
    case isTrue hkey => exact .inr ⟨BEq.symm hkey, rfl⟩
    case isFalse => exact .inl hd
  case isFalse =>
    rcases List.mem_append.mp h with h | h
    · exact .inl h
    · cases List.mem_singleton.mp h
      exact .inr ⟨BEq.rfl, rfl⟩

/-- The key inserted has an entry, and so have those that had one. -/
theorem contains_insert (m : Ledger κ ν) (key k : κ) (value : ν) :
  (m.insert key value).contains k = (key == k || m.contains k)
  := by
  rw [contains_eq_isSome, contains_eq_isSome, find?_insert]
  cases key == k <;> rfl

/-- The keys erased have no values, and all others keep theirs. -/
theorem find?_foldl_erase (keys : List κ) (m : Ledger κ ν) (k : κ) :
  (keys.foldl erase m).find? k = if keys.contains k then none else m.find? k
  := by
  induction keys generalizing m with
  | nil => rfl
  | cons key keys ih =>
      rw [List.foldl_cons, ih, find?_erase, List.contains_cons, BEq.comm]
      cases k == key <;> simp

/-- The keys erased have no entries, and all others have those they had. -/
theorem contains_foldl_erase (keys : List κ) (m : Ledger κ ν) (k : κ) :
  (keys.foldl erase m).contains k = (!keys.contains k && m.contains k)
  := by
  rw [contains_eq_isSome, contains_eq_isSome, find?_foldl_erase]
  cases keys.contains k <;> rfl

/-- An entry after an extension was there before, or it equals one of those that came in. -/
theorem mem_extend {m other : Ledger κ ν} {e : κ × ν} (h : e ∈ (m.extend other).entries) :
  e ∈ m.entries ∨ ∃ d ∈ other.entries, (d.1 == e.1) = true ∧ e.2 = d.2
  := by
  rw [extend] at h
  revert h
  induction other.entries generalizing m with
  | nil => exact .inl
  | cons d rest ih =>
      intro h
      rcases ih h with h | ⟨d', hd', heq⟩
      · rcases mem_insert h with h | heq
        · exact .inl h
        · exact .inr ⟨d, List.mem_cons_self, heq⟩
      · exact .inr ⟨d', List.mem_cons_of_mem _ hd', heq⟩

/-- What comes in counts for its keys, and all others keep their values. -/
theorem find?_extend (m : Ledger κ ν) {other : Ledger κ ν} (h : other.Distinct) (k : κ) :
  (m.extend other).find? k = (other.find? k).or (m.find? k)
  := by
  obtain ⟨entries⟩ := other
  rw [extend]
  simp only
  induction entries generalizing m with
  | nil => rfl
  | cons d rest ih =>
      obtain ⟨hhead, htail⟩ := List.pairwise_cons.mp h
      rw [List.foldl_cons, ih _ htail, find?_insert, find?.eq_def ⟨d :: rest⟩, List.find?_cons]
      cases hkey : d.1 == k with
      | false => rfl
      | true =>
        have hnone : (⟨rest⟩ : Ledger κ ν).find? k = none := by
          rw [find?, Option.map_eq_none_iff, List.find?_eq_none]
          intro e he
          rw [← BEq.congr_right hkey, BEq.comm, hhead e.1 (List.mem_map_of_mem he)]
          exact Bool.false_ne_true
        rw [hnone]
        rfl

/-- The values are those of the keys, in order. -/
theorem Distinct.values_eq {m : Ledger κ ν} (h : m.Distinct) :
  m.values = m.keys.filterMap m.find?
  := by
  rw [values, keys, List.filterMap_map, ← List.filterMap_eq_map]
  exact List.filterMap_congr fun e he => (h.find?_of_mem he).symm

/-- The keys of both ledgers have entries. -/
theorem contains_extend (m other : Ledger κ ν) (k : κ) :
  (m.extend other).contains k = (m.contains k || other.contains k)
  := by
  rw [extend, contains.eq_def other]
  induction other.entries generalizing m with
  | nil => simp
  | cons d rest ih =>
      rw [List.foldl_cons, ih, contains_insert, List.any_cons, Bool.or_left_comm, Bool.or_assoc]

omit [EquivBEq κ] in
/-- Insertion keeps the keys distinct. -/
theorem Distinct.insert {m : Ledger κ ν} (h : m.Distinct) (key : κ) (value : ν) :
  (m.insert key value).Distinct
  := by
  by_cases hc : m.contains key = true
  · rw [Distinct, keys_insert_of_contains m value hc]
    apply h
  · rw [Distinct, keys_insert_of_not_contains m value (by simpa using hc)]
    apply List.pairwise_append.mpr
    and_intros
    · apply h
    · apply List.pairwise_singleton
    · intro a ha b hb
      obtain rfl := List.mem_singleton.mp hb
      apply Bool.eq_false_iff.mpr
      intro hab
      apply hc
      apply (contains_iff m b).mpr ⟨a, ha, hab⟩

/-- Erasing a key that has an entry takes one entry out. -/
theorem size_erase_of_contains {m : Ledger κ ν} (h : m.Distinct) {key : κ}
    (hc : m.contains key = true) :
  (m.erase key).size + 1 = m.size
  := by
  rw [size_eq_length_keys, size_eq_length_keys, keys_erase]
  rw [contains_iff] at hc
  rw [Distinct] at h
  revert h hc
  induction m.keys with
  | nil => simp
  | cons a rest ih =>
      intro hd hc
      obtain ⟨hhead, htail⟩ := List.pairwise_cons.mp hd
      by_cases ha : (a == key) = true
      · have hall : rest.filter (fun k => !(k == key)) = rest := by
          apply List.filter_eq_self.mpr
          intro k hk
          rw [← BEq.congr_right ha, BEq.comm, hhead k hk]
          rfl
        simp [ha, hall]
      · obtain ⟨k, hk, hkk⟩ := hc
        have hrest : ∃ k ∈ rest, (k == key) = true := by
          rcases List.mem_cons.mp hk with rfl | hk
          · exact absurd hkk ha
          · exact ⟨k, hk, hkk⟩
        simp [ha, ih htail hrest]

end Equiv

end Ledger

end CallGraph
