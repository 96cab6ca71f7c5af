import CallGraph.Proofs.Ledger
import CallGraph.Proofs.Path
import CallGraph.Proofs.Recency.Links
import CallGraph.Proofs.Recency.Reference
import Mathlib.Data.List.Perm.Subperm

/-!
# Caches hold lists of entries

`Represents r order l` says that `r` holds the entries of `l` along the chain `order` and that its index leads
every key to its slot.  Each operation of the cache does to the list what its counterpart does, so that a
cache and a list give the same replies to the same calls, and all its links lead to slots
(`replies_eq_reference`).
-/

namespace CallGraph

namespace Recency

variable {κ ν ε : Type}

/-! ### The index -/

/-- The index leads every key to the slot with that key, and to no other one. -/
structure Indexed [BEq κ] (r : Recency κ ν) : Prop where
  find? : ∀ key i, r.index.find? key = some i ↔ (r.entryAt? i).any (fun e => e.1 == key) = true
  distinct : r.index.Distinct
  size : r.index.size = r.slots.size

/-- A change of the links keeps the index right. -/
theorem Indexed.sameEntries [BEq κ] {r r' : Recency κ ν} (h : Indexed r) (hsame : SameEntries r r') :
  Indexed r'
  := by
  constructor
  · intro key i
    rw [hsame.index, hsame.entries]
    apply h.find?
  · rw [hsame.index]
    apply h.distinct
  · rw [hsame.index, hsame.size]
    apply h.size

/-- A cache holds the entries of a list along a chain through all of its slots, and its index is right. -/
structure Represents [BEq κ] (r : Recency κ ν) (order : List Nat) (l : RecencyList κ ν) : Prop where
  chain : Chain r order
  length : order.length = r.slots.size
  indexed : Indexed r
  entries : l.entries.map some = order.map r.entryAt?
  capacity : r.capacity = l.capacity
  room : 0 < r.capacity
  bounded : r.slots.size ≤ r.capacity

/-- The empty cache holds the entries of the empty list. -/
theorem represents_empty [BEq κ] (capacity : Nat) :
  Represents (Recency.empty capacity : Recency κ ν) [] (.empty capacity)
  := by
  constructor
  · exact ⟨trivial, rfl, rfl, List.nodup_nil⟩
  · rfl
  · constructor
    · intro key i
      simp [Recency.empty, Ledger.find?, entryAt?]
    · apply Ledger.distinct_empty
    · rfl
  · rfl
  · rfl
  · apply Nat.lt_of_lt_of_le Nat.one_pos (Nat.le_max_right capacity 1)
  · apply Nat.zero_le

/-! ### Slots and entries -/

section Correspondence

variable [BEq κ] {r : Recency κ ν} {order : List Nat} {l : RecencyList κ ν}

/-- A chain of as many slots as there are goes through every slot. -/
theorem Represents.order_perm (h : Represents r order l) :
  order.Perm (List.range r.slots.size)
  := by
  apply (List.subperm_of_subset h.chain.nodup _).perm_of_length_le
  · apply Nat.le_of_eq (List.length_range.trans h.length.symm)
  · intro i hi
    rw [List.mem_range]
    apply h.chain.linked.lt_size hi

/-- A slot on the chain has an entry. -/
theorem Represents.entryAt?_isSome (h : Represents r order l) {i : Nat} (hi : i ∈ order) :
  ∃ e, r.entryAt? i = some e
  := by
  have hsize := h.chain.linked.lt_size hi
  use r.slots[i].entry
  simp [entryAt?, hsize]

/-- A key that the index does not know is the key of no entry. -/
theorem Represents.find?_eq_none (h : Represents r order l) {key : κ} (hkey : r.index.find? key = none) :
  l.find? key = none
  := by
  apply List.find?_eq_none.mpr
  intro e he hek
  have hmem : some e ∈ order.map r.entryAt? := h.entries ▸ List.mem_map_of_mem he
  obtain ⟨i, -, hi⟩ := List.mem_map.mp hmem
  have hfound := (h.indexed.find? key i).mpr (by simp [hi, hek])
  rw [hkey] at hfound
  cases hfound

/-- In entries that stand along an order, the only slot with a key has the entry that is found by the key,
and dropping that entry is dropping the slot. -/
theorem find?_and_eraseP_along {entries : List (κ × ν)} {along : List Nat} {at? : Nat → Option (κ × ν)}
    (hentries : entries.map some = along.map at?) {key : κ} {i : Nat} (hi : i ∈ along)
    (honly : ∀ j ∈ along, (at? j).any (fun e => e.1 == key) = true ↔ j = i) :
  (entries.find? fun e => e.1 == key) = at? i ∧
    (entries.eraseP fun e => e.1 == key).map some = (along.erase i).map at?
  := by
  induction entries generalizing along with
  | nil =>
      obtain rfl : along = [] := by simpa using hentries.symm
      cases hi
  | cons e rest ih =>
      cases along with
      | nil => cases hi
      | cons j others =>
          obtain ⟨hj, hrest⟩ := List.cons.inj hentries
          have hkey := honly j List.mem_cons_self
          rw [← hj, Option.any_some] at hkey
          by_cases hji : j = i
          · subst hji
            have he : (e.1 == key) = true := hkey.mpr rfl
            simp [he, hj, hrest]
          · have he : ¬ (e.1 == key) = true := fun he => hji (hkey.mp he)
            obtain ⟨hfind, herase⟩ := ih hrest ((List.mem_cons.mp hi).resolve_left (Ne.symm hji))
              fun k hk => honly k (List.mem_cons_of_mem j hk)
            simp [he, hji, hfind, herase, hj]

/-- The slot to which the index leads a key is on the chain, and is the only one with that key. -/
theorem Represents.found (h : Represents r order l) {key : κ} {i : Nat}
    (hkey : r.index.find? key = some i) :
  i ∈ order ∧ ∀ j, (r.entryAt? j).any (fun e => e.1 == key) = true ↔ j = i
  := by
  have hany := (h.indexed.find? key i).mp hkey
  constructor
  · apply h.order_perm.mem_iff.mpr
    rw [List.mem_range]
    by_contra hsize
    have hnone : r.entryAt? i = none := by
      simpa [entryAt?] using hsize
    simp [hnone] at hany
  · intro j
    rw [← h.indexed.find?, hkey]
    constructor
    · intro hji
      apply (Option.some.inj hji).symm
    · rintro rfl
      rfl

/-- Once the slot of a key is promoted and its value replaced, the cache holds the list in which the entry
of that key was advanced. -/
theorem Represents.advance (h : Represents r order l) {key : κ} {i : Nat} {e : κ × ν}
    (hkey : r.index.find? key = some i) {r' : Recency κ ν} (hchain : Chain r' (i :: order.erase i))
    (hindexed : Indexed r') (hi : r'.entryAt? i = some e)
    (hothers : ∀ j, j ≠ i → r'.entryAt? j = r.entryAt? j) (hsize : r'.slots.size = r.slots.size)
    (hcapacity : r'.capacity = r.capacity) :
  Represents r' (i :: order.erase i) (l.advance key e)
  := by
  obtain ⟨hmem, honly⟩ := h.found hkey
  constructor
  · apply hchain
  · rw [hsize, ← h.length, List.length_cons, List.length_erase_of_mem hmem]
    have hpos := List.length_pos_of_mem hmem
    omega
  · apply hindexed
  · have herase := (find?_and_eraseP_along h.entries hmem fun j _ => honly j).2
    simp only [RecencyList.advance, List.map_cons, hi, herase, List.cons.injEq, true_and]
    apply List.map_congr_left
    intro j hj
    rw [hothers]
    rintro rfl
    apply (List.Nodup.not_mem_erase h.chain.nodup) hj
  · rw [hcapacity]
    apply h.capacity
  · rw [hcapacity]
    apply h.room
  · rw [hcapacity, hsize]
    apply h.bounded

/-- Changing the value in a slot keeps the index right. -/
theorem Indexed.change_value (h : Indexed r) (i : Nat) (value : ν) :
  Indexed (r.change i fun s => { s with value })
  := by
  constructor
  · intro key j
    rw [show (r.change i fun s => { s with value }).index = r.index from rfl, h.find?]
    by_cases hij : i = j
    · subst hij
      rw [entryAt?_change_value]
      cases r.entryAt? i with
      | none => rfl
      | some e => rfl
    · rw [entryAt?_change_of_ne r hij]
  · apply h.distinct
  · rw [show (r.change i fun s => { s with value }).index = r.index from rfl, h.size]
    simp [change]

/-! ### The operations -/

/-- The list knows the entry in the slot of a key. -/
theorem Represents.find?_eq (h : Represents r order l) {key : κ} {i : Nat}
    (hkey : r.index.find? key = some i) :
  l.find? key = r.entryAt? i
  := by
  obtain ⟨hmem, honly⟩ := h.found hkey
  apply (find?_and_eraseP_along h.entries hmem fun j _ => honly j).1

/-- Asking for a key gives the value that the list has, and advances its entry. -/
theorem Represents.get (h : Represents r order l) (key : κ) :
  (r.get key).1 = (l.get key).1 ∧ ∃ order', Represents (r.get key).2 order' (l.get key).2
  := by
  unfold Recency.get RecencyList.get
  cases hkey : r.index.find? key with
  | none =>
      rw [h.find?_eq_none hkey]
      exact ⟨rfl, order, h⟩
  | some i =>
      obtain ⟨hmem, -⟩ := h.found hkey
      obtain ⟨e, he⟩ := h.entryAt?_isSome hmem
      have hsame := sameEntries_promote r i
      rw [h.find?_eq hkey, he]
      constructor
      · have hvalue := hsame.entries i
        rw [he, entryAt?] at hvalue
        obtain ⟨s, hs, rfl⟩ := Option.map_eq_some_iff.mp hvalue
        simp [hs, Slot.entry]
      · use i :: order.erase i
        apply h.advance hkey (h.chain.promote hmem) (h.indexed.sameEntries hsame)
        · rw [hsame.entries, he]
        · intro j _
          apply hsame.entries
        · apply hsame.size
        · apply hsame.capacity

/-- Giving a known key another value advances its entry with that value. -/
theorem Represents.update (h : Represents r order l) {key : κ} {i : Nat} (value : ν) {e : κ × ν}
    (hkey : r.index.find? key = some i) (he : r.entryAt? i = some e) :
  Represents ((r.change i fun s => { s with value }).promote i) (i :: order.erase i)
    (l.advance key (e.1, value))
  := by
  obtain ⟨hmem, -⟩ := h.found hkey
  have hsame := sameEntries_promote (r.change i fun s => { s with value }) i
  apply h.advance hkey ((h.chain.change_value i value).promote hmem)
    ((h.indexed.change_value i value).sameEntries hsame)
  · rw [hsame.entries, entryAt?_change_value, he]
    rfl
  · intro j hj
    rw [hsame.entries, entryAt?_change_of_ne r (Ne.symm hj)]
  · rw [hsame.size]
    simp [change]
  · rw [hsame.capacity]
    rfl

end Correspondence

section Insertion

variable [BEq κ] [EquivBEq κ] {r : Recency κ ν} {order : List Nat} {l : RecencyList κ ν}

/-- The cache with a new entry in a slot of its own, which the chain does not go through yet. -/
def grow (r : Recency κ ν) (key : κ) (value : ν) : Recency κ ν :=
  { r with slots := r.slots.push ⟨key, value, none, none⟩, index := r.index.insert key r.slots.size }

omit [EquivBEq κ] in
/-- The new slot has the new entry. -/
theorem entryAt?_grow (r : Recency κ ν) (key : κ) (value : ν) :
  (r.grow key value).entryAt? r.slots.size = some (key, value)
  := by
  simp [grow, entryAt?, Slot.entry]

omit [EquivBEq κ] in
/-- All other slots have the entries they had. -/
theorem entryAt?_grow_of_ne {i : Nat} (hi : i ≠ r.slots.size) (key : κ) (value : ν) :
  (r.grow key value).entryAt? i = r.entryAt? i
  := by
  simp [grow, entryAt?, Array.getElem?_push, hi]

omit [EquivBEq κ] in
/-- There is a slot more. -/
theorem size_grow (r : Recency κ ν) (key : κ) (value : ν) :
  (r.grow key value).slots.size = r.slots.size + 1
  := by
  simp [grow]

omit [EquivBEq κ] in
/-- The chain stays. -/
theorem Chain.grow (h : Chain r order) (key : κ) (value : ν) :
  Chain (r.grow key value) order
  := by
  constructor
  · apply h.linked.congr
    intro i hi s hs
    use s
    have hlt := h.linked.lt_size hi
    simp [Recency.grow, Array.getElem?_push, hs, Nat.ne_of_lt hlt]
  · apply h.newest
  · apply h.oldest
  · apply h.nodup

/-- The index stays right when an entry with a new key gets a slot. -/
theorem Indexed.grow (h : Indexed r) {key : κ} (hkey : r.index.find? key = none) (value : ν) :
  Indexed (r.grow key value)
  := by
  have hnone : r.entryAt? r.slots.size = none := by simp [entryAt?]
  constructor
  · intro k j
    rw [Recency.grow, Ledger.find?_insert, ← Recency.grow]
    by_cases hj : j = r.slots.size
    · subst hj
      rw [entryAt?_grow]
      by_cases hk : (key == k) = true
      · simp [hk]
      · simp [hk, h.find?, hnone]
    · rw [entryAt?_grow_of_ne hj, ← h.find?]
      by_cases hk : (key == k) = true
      · simp [hk, Ne.symm hj, ← Ledger.find?_congr r.index hk, hkey]
      · simp [hk]
  · apply h.distinct.insert
  · rw [size_grow, ← h.size]
    apply Ledger.size_insert_of_not_contains
    rw [← Ledger.find?_eq_none_iff, hkey]

/-- Putting an entry with a new key into a cache that has room puts it before the list. -/
theorem Represents.append (h : Represents r order l) {key : κ} (hkey : r.index.find? key = none)
    (value : ν) (hroom : r.slots.size < r.capacity) :
  Represents (r.append key value) (r.slots.size :: order)
    { l with entries := (key, value) :: l.entries }
  := by
  have happend : r.append key value = (r.grow key value).pushFront r.slots.size := rfl
  have hsame := sameEntries_pushFront (r.grow key value) r.slots.size
  have hnew : r.slots.size ∉ order := by
    intro hmem
    exact absurd (h.chain.linked.lt_size hmem) (Nat.lt_irrefl _)
  rw [happend]
  constructor
  · apply Chain.pushFront _ hnew
    · rw [size_grow]
      apply Nat.lt_succ_self
    · apply h.chain.grow key value
  · rw [hsame.size, size_grow, List.length_cons, h.length]
  · apply (h.indexed.grow hkey value).sameEntries hsame
  · rw [List.map_cons, List.map_cons, h.entries, hsame.entries, entryAt?_grow]
    congr 1
    apply List.map_congr_left
    intro i hi
    rw [hsame.entries, entryAt?_grow_of_ne (Nat.ne_of_lt (h.chain.linked.lt_size hi))]
  · rw [hsame.capacity]
    apply h.capacity
  · rw [hsame.capacity]
    apply h.room
  · rw [hsame.capacity, hsame.size, size_grow]
    apply Nat.succ_le_of_lt hroom

/-- The cache with another entry in a slot: the index leads the new key there, and the old one nowhere. -/
def overwrite (r : Recency κ ν) (i : Nat) (old key : κ) (value : ν) : Recency κ ν :=
  { r.change i fun s => { s with key, value } with index := (r.index.erase old).insert key i }

omit [EquivBEq κ] in
/-- The slot has the new entry. -/
theorem entryAt?_overwrite {i : Nat} {e : κ × ν} (he : r.entryAt? i = some e) (old key : κ) (value : ν) :
  (r.overwrite i old key value).entryAt? i = some (key, value)
  := by
  obtain ⟨s, hs, -⟩ := Option.map_eq_some_iff.mp he
  simp [overwrite, entryAt?, change, Array.getElem?_modify, hs, Slot.entry]

omit [EquivBEq κ] in
/-- All other slots have the entries they had. -/
theorem entryAt?_overwrite_of_ne {i j : Nat} (hij : i ≠ j) (old key : κ) (value : ν) :
  (r.overwrite i old key value).entryAt? j = r.entryAt? j
  :=
  entryAt?_change_of_ne r hij _

omit [EquivBEq κ] in
/-- There are as many slots as before. -/
theorem size_overwrite (i : Nat) (old key : κ) (value : ν) :
  (r.overwrite i old key value).slots.size = r.slots.size
  := by
  simp [overwrite, change]

omit [EquivBEq κ] in
/-- A chain through other slots stays. -/
theorem Chain.overwrite (h : Chain r order) {i : Nat} (hi : i ∉ order) (old key : κ) (value : ν) :
  Chain (r.overwrite i old key value) order
  :=
  ⟨h.linked.modify hi fun s => { s with key, value }, h.newest, h.oldest, h.nodup⟩

omit [EquivBEq κ] in
/-- A slot that is reused is cut out, gets the new entry and is put in front; its old key has to leave. -/
theorem replace_eq {i : Nat} {old : κ × ν} (hold : r.entryAt? i = some old) (key : κ) (value : ν) :
  r.replace i key value = (some old.1, ((r.unlink i).overwrite i old.1 key value).pushFront i)
  := by
  have hentry := (sameEntries_unlink r i).entries i
  rw [hold] at hentry
  obtain ⟨s, hs, rfl⟩ := Option.map_eq_some_iff.mp hentry
  simp [Recency.replace, overwrite, hs, Slot.entry, change]

/-- The index stays right when an entry with a new key takes the place of another one. -/
theorem Indexed.overwrite (h : Indexed r) {i : Nat} {old : κ × ν} (hold : r.entryAt? i = some old)
    {key : κ} (hkey : r.index.find? key = none) (value : ν) :
  Indexed (r.overwrite i old.1 key value)
  := by
  have hfind : r.index.find? old.1 = some i := (h.find? old.1 i).mpr (by simp [hold])
  have hcontains : r.index.contains old.1 = true := by
    rw [Ledger.contains_eq_isSome, hfind]
    rfl
  constructor
  · intro k j
    rw [Recency.overwrite, Ledger.find?_insert, Ledger.find?_erase, ← Recency.overwrite]
    by_cases hij : i = j
    · subst hij
      rw [entryAt?_overwrite hold]
      by_cases hk : (key == k) = true
      · simp [hk]
      · by_cases hko : (old.1 == k) = true
        · simp [hk, hko]
        · simp [hk, hko, h.find?, hold]
    · rw [entryAt?_overwrite_of_ne hij, ← h.find?]
      by_cases hk : (key == k) = true
      · have hnone : r.index.find? k = none := by
          rw [← Ledger.find?_congr r.index hk, hkey]
        simp [hk, hij, hnone]
      · by_cases hko : (old.1 == k) = true
        · have hsome : r.index.find? k = some i := by
            rw [← Ledger.find?_congr r.index hko, hfind]
          simp [hk, hko, hsome, hij]
        · simp [hk, hko]
  · apply (h.distinct.erase old.1).insert
  · rw [size_overwrite, ← h.size, ← Ledger.size_erase_of_contains h.distinct hcontains]
    apply Ledger.size_insert_of_not_contains
    rw [← Ledger.find?_eq_none_iff, Ledger.find?_erase, hkey]
    simp

/-- Putting an entry with a new key into a full cache drops the last entry of the list. -/
theorem Represents.replace (h : Represents r order l) {key : κ} (hkey : r.index.find? key = none)
    (value : ν) {front : List Nat} {i : Nat} (horder : order = front ++ [i]) {old : κ × ν}
    (hold : r.entryAt? i = some old) :
  (r.replace i key value).1 = some old.1 ∧
    Represents (r.replace i key value).2 (i :: front)
      { l with entries := (key, value) :: l.entries.dropLast }
  := by
  subst horder
  have hunlink := sameEntries_unlink r i
  have hold' : (r.unlink i).entryAt? i = some old := (hunlink.entries i).trans hold
  have hpush := sameEntries_pushFront ((r.unlink i).overwrite i old.1 key value) i
  have hsize := (size_overwrite (r := r.unlink i) i old.1 key value).trans hunlink.size
  have hfront : i ∉ front := by
    intro hmem
    apply (List.nodup_append.mp h.chain.nodup).2.2 i hmem i List.mem_cons_self rfl
  have hchain : Chain (r.unlink i) front := by
    have hunlinked := h.chain.unlink
    rwa [List.append_nil] at hunlinked
  rw [replace_eq hold]
  use rfl
  constructor
  · apply Chain.pushFront _ hfront
    · rw [hsize]
      apply h.chain.linked.lt_size (List.mem_append_right front List.mem_cons_self)
    · apply hchain.overwrite hfront old.1 key value
  · rw [hpush.size, hsize, ← h.length]
    simp
  · apply Indexed.sameEntries _ hpush
    apply (h.indexed.sameEntries hunlink).overwrite hold'
    rw [hunlink.index, hkey]
  · have hentries := congrArg List.dropLast h.entries
    rw [List.map_append, List.map_singleton, List.dropLast_concat, ← List.map_dropLast] at hentries
    rw [List.map_cons, List.map_cons, hpush.entries, entryAt?_overwrite hold', hentries]
    congr 1
    apply List.map_congr_left
    intro j hj
    rw [hpush.entries, entryAt?_overwrite_of_ne, hunlink.entries]
    rintro rfl
    apply hfront hj
  · rw [hpush.capacity]
    apply hunlink.capacity.trans h.capacity
  · rw [hpush.capacity]
    exact hunlink.capacity.symm ▸ h.room
  · rw [hpush.capacity, hpush.size, hsize]
    exact hunlink.capacity.symm ▸ h.bounded

omit [EquivBEq κ] in
/-- The list has as many entries as the cache has slots. -/
theorem Represents.length_entries (h : Represents r order l) :
  l.entries.length = r.slots.size
  := by
  have hlength := congrArg List.length h.entries
  rwa [List.length_map, List.length_map, h.length] at hlength

omit [EquivBEq κ] in
/-- The last slot of the chain holds the last entry of the list. -/
theorem Represents.entries_of_concat {front : List Nat} {i : Nat} (h : Represents r (front ++ [i]) l)
    {last : κ × ν} (hlast : r.entryAt? i = some last) :
  ∃ rest, l.entries = rest ++ [last]
  := by
  have hentries := congrArg List.getLast? h.entries
  rw [List.getLast?_map, List.getLast?_map, List.getLast?_concat, Option.map_some, hlast] at hentries
  obtain ⟨e, he, hel⟩ := Option.map_eq_some_iff.mp hentries
  obtain rfl := Option.some.inj hel
  apply List.getLast?_eq_some_iff.mp he

/-- Putting in an entry with a new key gives the key that the list gives, and pushes the entry to the list. -/
theorem Represents.push (h : Represents r order l) {key : κ} (hkey : r.index.find? key = none) (value : ν) :
  (r.insert key value).1 = (l.push (key, value)).1 ∧
    ∃ order', Represents (r.insert key value).2 order' (l.push (key, value)).2
  := by
  simp only [Recency.insert, hkey, Recency.size, h.indexed.size]
  by_cases hfull : r.capacity ≤ r.slots.size
  · have hpos : order ≠ [] := by
      rintro rfl
      have hempty := h.length
      have hroom := h.room
      rw [List.length_nil] at hempty
      omega
    obtain ⟨front, i, rfl⟩ := (List.eq_nil_or_concat order).resolve_left hpos
    rw [List.concat_eq_append] at h
    obtain ⟨old, hold⟩ := h.entryAt?_isSome (List.mem_append_right front List.mem_cons_self)
    obtain ⟨hevicted, hrepresents⟩ := h.replace hkey value rfl hold
    obtain ⟨rest, hrest⟩ := h.entries_of_concat hold
    rw [hrest, List.dropLast_concat] at hrepresents
    have hlistfull : l.capacity ≤ l.entries.length := by
      rwa [h.length_entries, ← h.capacity]
    rw [RecencyList.push_of_full hrest hlistfull, h.chain.oldest, List.getLast?_concat]
    simp only [hfull, if_true]
    exact ⟨hevicted, i :: front, hrepresents⟩
  · have hlistroom : l.entries.length < l.capacity := by
      rw [h.length_entries, ← h.capacity]
      apply Nat.lt_of_not_le hfull
    rw [RecencyList.push_of_room hlistroom]
    simp only [hfull, if_false]
    exact ⟨trivial, _, h.append hkey value (Nat.lt_of_not_le hfull)⟩

/-- Inserting gives the key that the list gives, and inserts into the list. -/
theorem Represents.insert (h : Represents r order l) (key : κ) (value : ν) :
  (r.insert key value).1 = (l.insert key value).1 ∧
    ∃ order', Represents (r.insert key value).2 order' (l.insert key value).2
  := by
  cases hkey : r.index.find? key with
  | none =>
      have hinsert : l.insert key value = l.push (key, value) := by
        simp only [RecencyList.insert, h.find?_eq_none hkey]
      rw [hinsert]
      apply h.push hkey value
  | some i =>
      obtain ⟨e, he⟩ := h.entryAt?_isSome (h.found hkey).1
      simp only [Recency.insert, RecencyList.insert, hkey, h.find?_eq hkey, he]
      exact ⟨trivial, i :: order.erase i, h.update value hkey he⟩

/-- Loading gives what the list gives, and does to the list what it does there. -/
theorem Represents.getOrLoad (h : Represents r order l) (key : κ) (load : κ → Except ε ν) :
  (r.getOrLoad key load).1 = (l.getOrLoad key load).1 ∧
    ∃ order', Represents (r.getOrLoad key load).2 order' (l.getOrLoad key load).2
  := by
  have hget := h.get key
  have hinsert := h.insert key
  unfold Recency.getOrLoad RecencyList.getOrLoad
  cases hkey : r.index.find? key with
  | none =>
      have hlost := h.find?_eq_none hkey
      have hr : r.get key = (none, r) := by simp [Recency.get, hkey]
      rw [hr, hlost]
      cases load key with
      | error e => exact ⟨rfl, order, h⟩
      | ok value => exact ⟨rfl, (hinsert value).2⟩
  | some i =>
      obtain ⟨e, he⟩ := h.entryAt?_isSome (h.found hkey).1
      have hfound := (h.find?_eq hkey).trans he
      have hl : l.get key = (some e.2, l.advance key e) := by simp [RecencyList.get, hfound]
      rw [hl] at hget
      rw [hfound]
      obtain ⟨hvalue, hrepresents⟩ := hget
      rcases hr : r.get key with ⟨value, r'⟩
      rw [hr] at hvalue hrepresents
      obtain rfl : value = some e.2 := hvalue
      exact ⟨rfl, hrepresents⟩

omit [EquivBEq κ] in
/-- A cache that is cleared holds the list without entries. -/
theorem Represents.clear (h : Represents r order l) :
  Represents r.clear [] l.clear
  := by
  constructor
  · exact ⟨trivial, rfl, rfl, List.nodup_nil⟩
  · rfl
  · constructor
    · intro key i
      simp [Recency.clear, Ledger.find?, entryAt?]
    · apply Ledger.distinct_empty
    · rfl
  · rfl
  · apply h.capacity
  · apply h.room
  · apply Nat.zero_le

omit [EquivBEq κ] in
/-- A cache has the keys that the list has. -/
theorem Represents.contains (h : Represents r order l) (key : κ) :
  r.contains key = l.contains key
  := by
  rw [Recency.contains, Ledger.contains_eq_isSome, RecencyList.contains, ← List.isSome_find?]
  cases hkey : r.index.find? key with
  | none =>
      have hlost := h.find?_eq_none hkey
      rw [RecencyList.find?] at hlost
      rw [hlost]
      rfl
  | some i =>
      obtain ⟨e, he⟩ := h.entryAt?_isSome (h.found hkey).1
      have hfound := (h.find?_eq hkey).trans he
      rw [RecencyList.find?] at hfound
      rw [hfound]
      rfl

/-- One call has the same reply from a cache and from the list it holds, and the cache holds the list after
it as well. -/
theorem Represents.perform (h : Represents r order l) (call : Call κ ν ε) :
  (r.perform call).1 = (performList l call).1 ∧
    ∃ order', Represents (r.perform call).2 order' (performList l call).2
  := by
  cases call with
  | get key =>
      obtain ⟨hreply, hafter⟩ := h.get key
      exact ⟨congrArg Reply.value hreply, hafter⟩
  | contains key => exact ⟨congrArg Reply.present (h.contains key), order, h⟩
  | insert key value =>
      obtain ⟨hreply, hafter⟩ := h.insert key value
      exact ⟨congrArg Reply.evicted hreply, hafter⟩
  | getOrLoad key load =>
      obtain ⟨hreply, hafter⟩ := h.getOrLoad key load
      exact ⟨congrArg Reply.loaded hreply, hafter⟩
  | clear => exact ⟨rfl, [], h.clear⟩

/-- Any number of calls have the same replies from a cache and from the list it holds. -/
theorem Represents.replies (h : Represents r order l) (calls : List (Call κ ν ε)) :
  (replies Recency.perform r calls).1 = (replies performList l calls).1 ∧
    ∃ order', Represents (replies Recency.perform r calls).2 order' (replies performList l calls).2
  := by
  induction calls generalizing r order l with
  | nil => exact ⟨rfl, order, h⟩
  | cons call calls ih =>
      obtain ⟨hreply, order', hafter⟩ := h.perform call
      obtain ⟨hrest, hlast⟩ := ih hafter
      exact ⟨congrArg₂ List.cons hreply hrest, hlast⟩

/-! ### What a caller sees -/

omit [BEq κ] [EquivBEq κ] in
/-- The keys along a chain are those of the list. -/
theorem walk_eq_keys {entries : List (κ × ν)} {newer : Option Nat} {along : List Nat}
    (hlinked : Linked r.slots newer along none) (hentries : entries.map some = along.map r.entryAt?)
    {fuel : Nat} (hfuel : along.length ≤ fuel) :
  r.walk fuel along.head? = entries.map (·.1)
  := by
  induction along generalizing newer entries fuel with
  | nil =>
      obtain rfl : entries = [] := by simpa using hentries
      cases fuel with
      | zero => rfl
      | succ fuel => rfl
  | cons i rest ih =>
      cases fuel with
      | zero => simp at hfuel
      | succ fuel =>
          obtain ⟨⟨s, hs, -, holder⟩, hrest⟩ := hlinked
          cases entries with
          | nil => simp at hentries
          | cons e entries =>
              obtain ⟨he, htail⟩ := List.cons.inj hentries
              have hkey : s.key = e.1 := by
                rw [entryAt?, hs] at he
                rw [Option.some.inj he]
                rfl
              rw [Option.or_none] at holder
              rw [List.head?_cons, walk, hs]
              simp only [List.map_cons, holder, hkey, List.cons.injEq, true_and]
              apply ih hrest htail (Nat.le_of_succ_le_succ hfuel)

omit [EquivBEq κ] in
/-- The keys of a cache by recency are those of the list. -/
theorem Represents.keysByRecency (h : Represents r order l) :
  r.keysByRecency = l.entries.map (·.1)
  := by
  rw [Recency.keysByRecency, h.chain.newest]
  apply walk_eq_keys h.chain.linked h.entries (Nat.le_of_eq h.length)

/-- No key of the list occurs twice. -/
theorem Represents.keys_distinct (h : Represents r order l) :
  (l.entries.map (·.1)).Pairwise fun a b => (a == b) = false
  := by
  have hpairs : (l.entries.map some).Pairwise fun a b =>
      ∀ e ∈ a, ∀ d ∈ b, (e.1 == d.1) = false := by
    rw [h.entries, List.pairwise_map]
    apply h.chain.nodup.imp
    intro i j hij e he d hd
    apply Bool.eq_false_iff.mpr
    intro hed
    have hi := (h.indexed.find? d.1 i).mpr (by simp [Option.mem_def.mp he, hed])
    have hj := (h.indexed.find? d.1 j).mpr (by simp [Option.mem_def.mp hd])
    apply hij (Option.some.inj (hi.symm.trans hj))
  rw [List.pairwise_map] at hpairs ⊢
  apply hpairs.imp
  intro e d hed
  apply hed e rfl d rfl

/-- Every index that a cache keeps is that of a slot. -/
structure InRange (r : Recency κ ν) : Prop where
  newest : ∀ i ∈ r.newest, i < r.slots.size
  oldest : ∀ i ∈ r.oldest, i < r.slots.size
  newer : ∀ s ∈ r.slots, ∀ i ∈ s.newer, i < r.slots.size
  older : ∀ s ∈ r.slots, ∀ i ∈ s.older, i < r.slots.size
  index : ∀ e ∈ r.index.entries, e.2 < r.slots.size

/-- A cache that holds a list keeps no index beyond its slots. -/
theorem Represents.inRange (h : Represents r order l) :
  InRange r
  := by
  have hlt : ∀ i ∈ order, i < r.slots.size := fun i hi => h.chain.linked.lt_size hi
  have hmem : ∀ s ∈ r.slots, ∃ i ∈ order, r.slots[i]? = some s := by
    intro s hs
    obtain ⟨i, hi, rfl⟩ := Array.mem_iff_getElem.mp hs
    use i, h.order_perm.mem_iff.mpr (List.mem_range.mpr hi)
    apply Array.getElem?_eq_getElem hi
  constructor
  · rw [h.chain.newest]
    intro i hi
    apply hlt i (List.mem_of_mem_head? hi)
  · rw [h.chain.oldest]
    intro i hi
    apply hlt i (List.mem_of_mem_getLast? hi)
  · intro s hs i hi
    obtain ⟨j, hj, hjs⟩ := hmem s hs
    rcases (h.chain.linked.links_mem hj hjs).1 i hi with hnone | horder
    · cases hnone
    · apply hlt i horder
  · intro s hs i hi
    obtain ⟨j, hj, hjs⟩ := hmem s hs
    rcases (h.chain.linked.links_mem hj hjs).2 i hi with hnone | horder
    · cases hnone
    · apply hlt i horder
  · intro e he
    apply hlt e.2
    apply (h.found (h.indexed.distinct.find?_of_mem he)).1

/-- What holds of a cache at all times: it has `capacity` entries at most, one at least allowed; no key occurs
twice; the way over the older slots goes through every slot once and ends; every index is that of a slot; and
a load that fails changes nothing. -/
structure Sound (capacity : Nat) (r : Recency κ ν) : Prop where
  size_le : r.size ≤ max capacity 1
  keys_distinct : r.keysByRecency.Pairwise fun a b => (a == b) = false
  walk : ∃ order, order.Perm (List.range r.slots.size) ∧ Walks r r.newest order
  inRange : InRange r
  failed_load : ∀ (ε : Type) (key : κ) (load : κ → Except ε ν) (e : ε),
    (r.getOrLoad key load).1 = .error e → (r.getOrLoad key load).2 = r

/-- A cache that holds a list is sound. -/
theorem Represents.sound (h : Represents r order l) {capacity : Nat}
    (hcapacity : l.capacity = max capacity 1) :
  Sound capacity r
  := by
  constructor
  · rw [← hcapacity, ← h.capacity, Recency.size, h.indexed.size]
    apply h.bounded
  · rw [h.keysByRecency]
    apply h.keys_distinct
  · use order, h.order_perm
    rw [h.chain.newest]
    apply h.chain.linked.walks
  · apply h.inRange
  · intro ε key load e hfails
    cases hkey : r.index.find? key with
    | none =>
        have hget : r.get key = (none, r) := by simp [Recency.get, hkey]
        simp only [Recency.getOrLoad, hget] at hfails ⊢
        cases hload : load key with
        | ok value =>
            rw [hload] at hfails
            cases hfails
        | error e => rfl
    | some i =>
        obtain ⟨d, hd⟩ := h.entryAt?_isSome (h.found hkey).1
        rw [(h.getOrLoad key load).1, RecencyList.getOrLoad, h.find?_eq hkey, hd] at hfails
        cases hfails

omit [EquivBEq κ] in
/-- The capacity of a list never changes. -/
theorem capacity_performList (l : RecencyList κ ν) (call : Call κ ν ε) :
  (performList l call).2.capacity = l.capacity
  := by
  have hpush : ∀ e : κ × ν, (l.push e).2.capacity = l.capacity := by
    intro e
    unfold RecencyList.push
    dsimp only
    split
    · rfl
    · rfl
  have hinsert : ∀ key value, (l.insert key value).2.capacity = l.capacity := by
    intro key value
    unfold RecencyList.insert
    split
    · rfl
    · apply hpush
  cases call with
  | get key =>
      simp only [performList, RecencyList.get, Prod.map_snd, id_eq]
      split
      · rfl
      · rfl
  | contains key => rfl
  | insert key value => apply hinsert
  | getOrLoad key load =>
      simp only [performList, RecencyList.getOrLoad, Prod.map_snd, id_eq]
      split
      · rfl
      · split
        · apply hinsert
        · rfl
  | clear => rfl

omit [EquivBEq κ] in
/-- The capacity of a list is the same after any number of calls. -/
theorem capacity_replies (l : RecencyList κ ν) (calls : List (Call κ ν ε)) :
  (replies performList l calls).2.capacity = l.capacity
  := by
  induction calls generalizing l with
  | nil => rfl
  | cons call calls ih =>
      apply Eq.trans (ih _)
      apply capacity_performList

/-- Whatever is asked of a new cache, it replies what a list of entries replies, its size, members and keys by
recency are those of the list, and it is sound. -/
theorem replies_eq_reference (capacity : Nat) (calls : List (Call κ ν ε)) :
  let cache := replies Recency.perform (Recency.empty capacity : Recency κ ν) calls
  let list := replies performList (.empty capacity) calls
  cache.1 = list.1 ∧ cache.2.size = list.2.entries.length ∧
    (∀ key, cache.2.contains key = list.2.contains key) ∧
    cache.2.keysByRecency = list.2.entries.map (·.1) ∧ Sound capacity cache.2
  := by
  obtain ⟨hreplies, order, h⟩ := (represents_empty (κ := κ) (ν := ν) capacity).replies calls
  use hreplies
  and_intros
  · rw [h.length_entries, Recency.size, h.indexed.size]
  · apply h.contains
  · apply h.keysByRecency
  · apply h.sound
    apply capacity_replies

end Insertion

/-- Two texts fit into this cache.  Asking for the first under another spelling of its path saves it from
being evicted; a load that fails evicts nothing. -/
theorem replies_eq_reference_of_paths :
  (replies Recency.perform (Recency.empty 2 : Recency Path Nat)
      [.insert ⟨"/a"⟩ 1, .insert ⟨"/b"⟩ 2, .get ⟨"//a/"⟩, .getOrLoad ⟨"/c"⟩ fun _ => .error "gone",
        .insert ⟨"/c"⟩ 3]).1 =
    [.evicted none, .evicted none, .value (some 1), .loaded (.error "gone"), .evicted (some ⟨"/b"⟩)]
  := by
  rw [(replies_eq_reference 2 _).1]
  rfl

end Recency

end CallGraph
